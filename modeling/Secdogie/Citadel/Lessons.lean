/-
# `Secdogie.Citadel.Lessons` — what may become a memory

A memory has a class, a scope, a key and a value, and it is named by the hash
of the four.  What looks like a credential never becomes one.
-/
import Secdogie.Agent.Action
import Secdogie.Identity.Revocation

namespace Secdogie.Citadel

open Secdogie.Graph Secdogie.Identity

inductive MemoryClass where
  | caution
  | fact
  | preference
deriving DecidableEq

def MemoryClass.value : MemoryClass → String
  | .caution => "caution"
  | .fact => "fact"
  | .preference => "preference"

/-- `MemoryClass(s)` -/
def MemoryClass.ofText (s : String) : Option MemoryClass :=
  [MemoryClass.caution, .fact, .preference].find? (fun c => c.value = s)

def MAX_KEY : ℕ := 200
def MAX_VALUE : ℕ := 500

/-! ## Credentials -/

def SECRET_KEY_HINTS : List String :=
  ["password", "passwd", "secret", "token", "api_key", "apikey", "api-key", "pin", "cvv", "ssn",
    "credential", "private_key"]

/-- What follows the start, if the text begins with it. -/
def rest (start : String) (cs : List Char) : Option (List Char) :=
  if start.toList <+: cs then some (cs.drop start.toList.length) else none

/-- The text begins with so many characters of a kind. -/
def startsWith (p : Char → Bool) (n : ℕ) (cs : List Char) : Bool :=
  decide (n ≤ (cs.takeWhile p).length)

/-- `[A-Z ]*PRIVATE KEY-----` -/
def privateKey : List Char → Bool
  | [] => false
  | c :: cs =>
      decide ("PRIVATE KEY-----".toList <+: c :: cs) || ((c.isUpper || c = ' ') && privateKey cs)

/-- A credential begins here. -/
def secretAt (cs : List Char) : Bool :=
  (rest "sk-" cs).any (startsWith Char.isAlphanum 16) ||
  (rest "ghp_" cs).any (startsWith Char.isAlphanum 20) ||
  ['b', 'a', 'p', 'r', 's'].any (fun c => (rest ("xox" ++ String.singleton c ++ "-") cs).any
    (startsWith (fun c => c.isAlphanum || c = '-') 10)) ||
  (rest "AKIA" cs).any (startsWith (fun c => c.isUpper || c.isDigit) 16) ||
  (rest "-----BEGIN " cs).any privateKey

def looks_like_secret (lower : String → String) (key value : String) : Bool :=
  SECRET_KEY_HINTS.any (fun hint => decide (hint.toList <:+: (lower key).toList)) ||
    value.toList.tails.any secretAt

/-! ## Memories -/

/-- Between one and so many characters, none of them a space, after the start. -/
def named (start : String) (cs : List Char) : Bool :=
  (rest start cs).any (fun id =>
    decide (1 ≤ id.length ∧ id.length ≤ 200) && id.all (fun c => !Agent.isSpace c.toNat))

/-- `_SCOPE.match`, whose dollar also matches before a newline at the end. -/
def isScope (scope : String) : Bool :=
  let cs := if scope.toList.getLast? = some '\n' then scope.toList.dropLast else scope.toList
  decide (cs = "global".toList) || named "app:" cs || named "goal:" cs

/-- Neither blank nor too long. -/
def isText (limit : ℕ) (s : String) : Bool :=
  !s.toList.all (fun c => Agent.isSpace c.toNat) && decide (s.length ≤ limit)

/-- What `validate` checks besides the class and the source. -/
def admissible (lower : String → String) (scope key value : String) : Bool :=
  isScope scope && isText MAX_KEY key && isText MAX_VALUE value && !looks_like_secret lower key value

section

variable {F : Type}

/-- `validate`; `none` is its `ValueError`.  The sources it is called with are the known ones. -/
def validate (lower : String → String) (mclass scope key value : Value F) : Option MemoryClass := do
  let mclass ← mclass.asStr.bind MemoryClass.ofText
  let scope ← scope.asStr
  let key ← key.asStr
  let value ← value.asStr
  if admissible lower scope key value then some mclass else none

def candidateBody (mclass : MemoryClass) (scope key value : String) : Value F :=
  .obj [("key", .str key), ("mclass", .str mclass.value), ("scope", .str scope), ("value", .str value)]

variable [FloatCodec F]

def candidate_id (F : Type) [FloatCodec F] (C : Crypto) (mclass : MemoryClass)
    (scope key value : String) : String :=
  digest C (candidateBody (F := F) mclass scope key value)

end

end Secdogie.Citadel
