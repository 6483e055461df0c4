/-
# `Secdogie.Graph.Canon` — canonical JSON: the strict reader and the writer

The graph layer signs and content-addresses canonical JSON text, so two
things have to be said about it before anything else: what the reader
accepts (`parseWith`) and what the writer prints (`toStr`).

The reader walks the text by position.  Here a position is a `Cursor`, the
characters still unread together with the BYTE offset reached, because
every error names the byte it happened at.  The source reads bytes; it only
ever stops at ASCII ones, so reading characters takes the same branches.

Nesting is bounded by `max_depth`, and the recursion of `value` is on the
room that is left of it: opening a bracket with no room left is the
`nesting too deep` error of the source.  The loops inside a container and
inside a string take a count of iterations instead; each iteration consumes
a character, so the number of unread characters is always enough.

Floats are never part of a graph delta, but the reader and the writer
handle them.  How a token becomes a float and how a float prints is the
business of the standard library and of `py_float_repr`; both are kept as a
`FloatCodec`, about which nothing is assumed here.
-/
import Mathlib

namespace Secdogie.Graph

/-- A parsed JSON value that remembers what Python would have parsed.  An
integer is kept exactly; an object is its association list, sorted by key
(`Value.WF` below). -/
inductive Value (F : Type) where
  | null
  | bool (b : Bool)
  | int (n : Int)
  | float (f : F)
  | str (s : String)
  | arr (a : List (Value F))
  | obj (m : List (String × Value F))

/-- Reading a float token (`none` when it overflows to infinity) and
printing a finite float. -/
class FloatCodec (F : Type) where
  ofToken : List Char → Option F
  repr : F → List Char

/-- Values without floats. -/
instance : FloatCodec Empty where
  ofToken _ := none
  repr f := nomatch f

namespace Value

variable {F : Type}

def asStr : Value F → Option String
  | .str s => some s
  | _ => none

def asObj : Value F → Option (List (String × Value F))
  | .obj m => some m
  | _ => none

def asArr : Value F → Option (List (Value F))
  | .arr a => some a
  | _ => none

/-- The value as a `u64`, if it is an integer (not a float) in range. -/
def asU64 : Value F → Option Nat
  | .int n => if 0 ≤ n ∧ n < 2 ^ 64 then some n.toNat else none
  | _ => none

end Value

/-! ## Objects as sorted association lists -/

section Obj

variable {V : Type}

/-- `m.get(k)`. -/
def objGet (m : List (String × V)) (k : String) : Option V :=
  (m.find? (fun e => e.1 == k)).map Prod.snd

/-- `m.insert(k, v)`: the entries stay sorted by key, an entry under the
same key is replaced. -/
def objInsert (k : String) (v : V) : List (String × V) → List (String × V)
  | [] => [(k, v)]
  | e :: rest =>
      if k < e.1 then (k, v) :: e :: rest
      else if k = e.1 then (k, v) :: rest
      else e :: objInsert k v rest

/-- Builds an object from `(key, value)` pairs. -/
def obj {F : Type} (pairs : List (String × Value F)) : Value F :=
  .obj (pairs.foldl (fun m e => objInsert e.1 e.2 m) [])

/-- Builds an array of strings. -/
def strArr {F : Type} (items : List String) : Value F :=
  .arr (items.map .str)

end Obj

/-! ## The writer -/

/-- `{:04x}` of a code below `0x20`. -/
def hex4Of (n : Nat) : List Char :=
  ['0', '0', Nat.digitChar (n / 16), Nat.digitChar (n % 16)]

/-- The characters with a short escape, and the letter of that escape. -/
def shortEscape : Char → Option Char
  | '"' => some '"'
  | '\\' => some '\\'
  | '\x08' => some 'b'
  | '\x0c' => some 'f'
  | '\n' => some 'n'
  | '\r' => some 'r'
  | '\t' => some 't'
  | _ => none

/-- One character of a string, escaped as the writer escapes it. -/
def escapeChar (c : Char) : List Char :=
  match shortEscape c with
  | some e => ['\\', e]
  | none => if c.toNat < 0x20 then '\\' :: 'u' :: hex4Of c.toNat else [c]

def escape (s : List Char) : List Char := s.flatMap escapeChar

def writeStr (s : String) : List Char := '"' :: escape s.toList ++ ['"']

/-- The normalized decimal digits of an integer, never `-0`. -/
def intDigits (n : Int) : List Char :=
  if n < 0 then '-' :: Nat.toDigits 10 n.natAbs else Nat.toDigits 10 n.natAbs

section Write

variable {F : Type} [FloatCodec F]

mutual

def writeValue : Value F → List Char
  | .null => ['n', 'u', 'l', 'l']
  | .bool true => ['t', 'r', 'u', 'e']
  | .bool false => ['f', 'a', 'l', 's', 'e']
  | .int n => intDigits n
  | .float f => FloatCodec.repr f
  | .str s => writeStr s
  | .arr a => '[' :: writeItems a
  | .obj m => '\x7b' :: writeMembers m

/-- The items of an array and its closing bracket. -/
def writeItems : List (Value F) → List Char
  | [] => [']']
  | v :: rest => writeValue v ++ writeMoreItems rest

def writeMoreItems : List (Value F) → List Char
  | [] => [']']
  | v :: rest => ',' :: writeValue v ++ writeMoreItems rest

/-- The members of an object and its closing bracket. -/
def writeMembers : List (String × Value F) → List Char
  | [] => ['\x7d']
  | (k, v) :: rest => writeStr k ++ ':' :: writeValue v ++ writeMoreMembers rest

def writeMoreMembers : List (String × Value F) → List Char
  | [] => ['\x7d']
  | (k, v) :: rest => ',' :: writeStr k ++ ':' :: writeValue v ++ writeMoreMembers rest

end

/-- Canonical text of `v`. -/
def toStr (v : Value F) : String := String.ofList (writeValue v)

/-- Canonical bytes of `v`. -/
def toBytes (v : Value F) : ByteArray := (toStr v).toUTF8

end Write

/-! ## The reader -/

structure Limits where
  max_bytes : Nat := 2 ^ 20
  max_depth : Nat := 64

structure ParseError where
  reason : String
  offset : Nat
deriving DecidableEq

/-- What is left to read, and the byte offset reached. -/
structure Cursor where
  rest : List Char
  i : Nat
deriving DecidableEq

/-- UTF-8 length of a run of characters. -/
def byteLen (l : List Char) : Nat := (l.map Char.utf8Size).sum

namespace Cursor

def err {α : Type} (p : Cursor) (reason : String) : Except ParseError α :=
  .error ⟨reason, p.i⟩

def peek (p : Cursor) : Option Char := p.rest.head?

/-- Past the `n` characters ahead. -/
def skip (p : Cursor) (n : Nat) : Cursor :=
  ⟨p.rest.drop n, p.i + byteLen (p.rest.take n)⟩

def isWs (c : Char) : Bool := c == ' ' || c == '\t' || c == '\n' || c == '\r'

def ws (p : Cursor) : Cursor := p.skip (p.rest.takeWhile isWs).length

/-- Past `lit`, if it comes next. -/
def eat (lit : List Char) (p : Cursor) : Option Cursor :=
  if lit.isPrefixOf p.rest then some (p.skip lit.length) else none

/-- The digits that come next. -/
def digits (p : Cursor) : List Char := p.rest.takeWhile Char.isDigit

end Cursor

/-- `char::to_digit(16)`. -/
def hexVal (c : Char) : Option Nat :=
  if '0' ≤ c ∧ c ≤ '9' then some (c.toNat - '0'.toNat)
  else if 'a' ≤ c ∧ c ≤ 'f' then some (c.toNat - 'a'.toNat + 10)
  else if 'A' ≤ c ∧ c ≤ 'F' then some (c.toNat - 'A'.toNat + 10)
  else none

def hex4 (p : Cursor) : Except ParseError (Nat × Cursor) :=
  match p.rest with
  | c₁ :: c₂ :: c₃ :: c₄ :: _ =>
      match hexVal c₁, hexVal c₂, hexVal c₃, hexVal c₄ with
      | some a, some b, some c, some d => .ok (((a * 16 + b) * 16 + c) * 16 + d, p.skip 4)
      | _, _, _, _ => p.err "invalid escape"
  | _ => p.err "invalid escape"

/-- `char::from_u32`. -/
def charFromU32 (n : Nat) : Option Char :=
  if n.isValidChar then some (Char.ofNat n) else none

/-- The code point of a code unit, read together with the second half of a
surrogate pair where the first half demands one. -/
def codePoint (hi : Nat) (p : Cursor) : Except ParseError (Nat × Cursor) :=
  if 0xD800 ≤ hi ∧ hi < 0xDC00 then
    match p.eat ['\\', 'u'] with
    | none => p.err "lone surrogate"
    | some p => do
        let (lo, p) ← hex4 p
        if 0xDC00 ≤ lo ∧ lo < 0xE000 then
          pure (0x10000 + (hi - 0xD800) * 2 ^ 10 + (lo - 0xDC00), p)
        else p.err "lone surrogate"
  else if 0xDC00 ≤ hi ∧ hi < 0xE000 then p.err "lone surrogate"
  else pure (hi, p)

/-- What follows `\u`. -/
def unicodeEscape (p : Cursor) : Except ParseError (Char × Cursor) := do
  let (hi, p) ← hex4 p
  let (cp, p) ← codePoint hi p
  match charFromU32 cp with
  | some c => pure (c, p)
  | none => p.err "invalid escape"

/-- The escape after a backslash. -/
def escapeSeq (p : Cursor) : Except ParseError (Char × Cursor) :=
  match p.peek with
  | none => p.err "invalid escape"
  | some '"' => .ok ('"', p.skip 1)
  | some '\\' => .ok ('\\', p.skip 1)
  | some '/' => .ok ('/', p.skip 1)
  | some 'b' => .ok ('\x08', p.skip 1)
  | some 'f' => .ok ('\x0c', p.skip 1)
  | some 'n' => .ok ('\n', p.skip 1)
  | some 'r' => .ok ('\r', p.skip 1)
  | some 't' => .ok ('\t', p.skip 1)
  | some 'u' => unicodeEscape (p.skip 1)
  | some _ => (p.skip 1).err "invalid escape"

/-- The characters of a string up to and past its closing quote. -/
def stringLoop : Nat → Cursor → Except ParseError (List Char × Cursor)
  | 0, p => p.err "unterminated string"
  | n + 1, p =>
      match p.peek with
      | none => p.err "unterminated string"
      | some '"' => .ok ([], p.skip 1)
      | some '\\' => do
          let (c, q) ← escapeSeq (p.skip 1)
          let (s, q) ← stringLoop n q
          pure (c :: s, q)
      | some c =>
          if c.toNat < 0x20 then p.err "control character in string"
          else do
            let (s, q) ← stringLoop n (p.skip 1)
            pure (c :: s, q)

/-- A string, from its opening quote. -/
def string (p : Cursor) : Except ParseError (String × Cursor) := do
  let (s, q) ← stringLoop p.rest.length (p.skip 1)
  pure (String.ofList s, q)

/-- The fraction of a number, if there is one: its text. -/
def fraction (start : Nat) (p : Cursor) : Except ParseError (List Char) :=
  match p.peek with
  | some '.' =>
      let ds := (p.skip 1).digits
      if ds = [] then .error ⟨"invalid number", start⟩ else .ok ('.' :: ds)
  | _ => .ok []

/-- The exponent of a number, if there is one: its text. -/
def exponent (start : Nat) (p : Cursor) : Except ParseError (List Char) :=
  match p.peek with
  | some e =>
      if e = 'e' ∨ e = 'E' then
        let sign := match (p.skip 1).peek with
          | some '+' => ['+']
          | some '-' => ['-']
          | _ => []
        let ds := (p.skip (1 + sign.length)).digits
        if ds = [] then .error ⟨"invalid number", start⟩ else .ok (e :: sign ++ ds)
      else .ok []
  | none => .ok []

section Read

variable {F : Type} [FloatCodec F]

/-- The value of a number token. -/
def numberValue (start : Nat) (sign ds frac exp : List Char) : Except ParseError (Value F) :=
  if frac ++ exp = [] then
    let n : Nat := Nat.ofDigitChars 10 ds 0
    .ok (.int (if sign = [] then n else -n))
  else
    match FloatCodec.ofToken (sign ++ ds ++ frac ++ exp) with
    | some f => .ok (.float f)
    | none => .error ⟨"non-finite number", start⟩

/-- The sign of a number, if there is one: its text. -/
def minus (p : Cursor) : List Char := if p.peek = some '-' then ['-'] else []

def number (p : Cursor) : Except ParseError (Value F × Cursor) :=
  let sign := minus p
  let q := p.skip sign.length
  let ds := q.digits
  if ds = [] ∨ (1 < ds.length ∧ ds.head? = some '0') then .error ⟨"invalid number", p.i⟩
  else do
    let q := q.skip ds.length
    let frac ← fraction p.i q
    let q := q.skip frac.length
    let exp ← exponent p.i q
    let v ← numberValue p.i sign ds frac exp
    pure (v, q.skip exp.length)

/-- The members of an object, from the one that comes next.  `m` are the
members read so far, `val` reads a member's value. -/
def members (val : Cursor → Except ParseError (Value F × Cursor)) :
    Nat → List (String × Value F) → Cursor → Except ParseError (Value F × Cursor)
  | 0, _, p => p.err "invalid JSON"
  | n + 1, m, p => do
      let p := p.ws
      if p.peek ≠ some '"' then p.err "invalid JSON" else
      let (k, q) ← string p
      let q := q.ws
      if q.peek ≠ some ':' then q.err "invalid JSON" else
      let (v, q) ← val (q.skip 1).ws
      if (objGet m k).isSome then throw ⟨"duplicate key", p.i⟩
      let m := objInsert k v m
      let q := q.ws
      match q.peek with
      | some ',' => members val n m (q.skip 1)
      | some '\x7d' => pure (.obj m, q.skip 1)
      | _ => q.err "invalid JSON"

/-- The items of an array, from the one that comes next. -/
def elements (val : Cursor → Except ParseError (Value F × Cursor)) :
    Nat → Cursor → Except ParseError (List (Value F) × Cursor)
  | 0, p => p.err "invalid JSON"
  | n + 1, p => do
      let (v, q) ← val p.ws
      let q := q.ws
      match q.peek with
      | some ',' => do
          let (rest, q) ← elements val n (q.skip 1)
          pure (v :: rest, q)
      | some ']' => pure ([v], q.skip 1)
      | _ => q.err "invalid JSON"

/-- An object, from its opening bracket. -/
def object (val : Cursor → Except ParseError (Value F × Cursor)) (p : Cursor) :
    Except ParseError (Value F × Cursor) :=
  let q := (p.skip 1).ws
  if q.peek = some '\x7d' then .ok (.obj [], q.skip 1)
  else members val p.rest.length [] q

/-- An array, from its opening bracket. -/
def array (val : Cursor → Except ParseError (Value F × Cursor)) (p : Cursor) :
    Except ParseError (Value F × Cursor) :=
  let q := (p.skip 1).ws
  if q.peek = some ']' then .ok (.arr [], q.skip 1)
  else (elements val p.rest.length q).map (fun r => (.arr r.1, r.2))

/-- A literal, if it comes next. -/
def literal (lit : List Char) (v : Value F) (p : Cursor) :
    Except ParseError (Value F × Cursor) :=
  match p.eat lit with
  | some q => .ok (v, q)
  | none => p.err "invalid JSON"

/-- One value.  `nested` reads the values inside a container; it is `none`
when no bracket may be opened any more. -/
def valueStep (nested : Option (Cursor → Except ParseError (Value F × Cursor))) (p : Cursor) :
    Except ParseError (Value F × Cursor) :=
  match p.peek with
  | none => p.err "invalid JSON"
  | some c =>
      if c = '\x7b' then
        match nested with
        | none => p.err "nesting too deep"
        | some val => object val p
      else if c = '[' then
        match nested with
        | none => p.err "nesting too deep"
        | some val => array val p
      else if c = '"' then (string p).map (fun r => (.str r.1, r.2))
      else if c = 't' then literal ['t', 'r', 'u', 'e'] (.bool true) p
      else if c = 'f' then literal ['f', 'a', 'l', 's', 'e'] (.bool false) p
      else if c = 'n' then literal ['n', 'u', 'l', 'l'] .null p
      -- Python's reader accepts these three; nothing here does
      else if (p.eat "NaN".toList).isSome || (p.eat "Infinity".toList).isSome
          || (p.eat "-Infinity".toList).isSome then p.err "non-finite number"
      else if c = '-' ∨ c.isDigit then number p
      else p.err "invalid JSON"

/-- One value; `room` is how many brackets may still be opened. -/
def value : Nat → Cursor → Except ParseError (Value F × Cursor)
  | 0 => valueStep none
  | room + 1 => valueStep (some (value room))

def parseWith (text : String) (limits : Limits) : Except ParseError (Value F) :=
  if limits.max_bytes < text.utf8ByteSize then
    .error ⟨"input too large", limits.max_bytes⟩
  else do
    let (v, q) ← value limits.max_depth (Cursor.ws ⟨text.toList, 0⟩)
    let q := q.ws
    if q.rest ≠ [] then q.err "trailing data" else pure v

/-- Parses `text` strictly, with default limits. -/
def parse (text : String) : Except ParseError (Value F) := parseWith text {}

end Read

end Secdogie.Graph
