/-
# `Secdogie.Inference.Lease` — who may answer with which model, and until when

A lease is public: the broker signs who may use the key of a model, and
commits to a canary by its hash.  The canary lies beside the key in what is
sealed to the node, and nowhere else.
-/
import Secdogie.Inference.Protocol
import Secdogie.Lib.FirstPer

namespace Secdogie.Inference

open Secdogie.Graph Secdogie.Identity

def LEASE : String := "secdogie/inference/lease/v1"
def LEASE_REVOCATION : String := "secdogie/inference/lease-revocation/v1"
def MAX_REVOKED : Nat := 64

section

variable {F : Type} [PyNumber F] (C : Crypto) (trust : TrustRoots)

/-! ## The public lease -/

/-- What the lease id commits to. -/
def leaseBody (obj : Value F) : Value F :=
  .obj ((obj.asObj.getD []).filter (fun e => decide (e.1 ∉ ["lease_id", "signer", "sig"])))

def lease_shape (obj : Value F) : Check Unit := do
  ensure ((getStr obj "subject").any (is_did C) = true ∧ (getStr obj "model").any is_model = true)
    "bad subject or model"
  let version ← orRefuse (getInt obj "key_version") "bad key_version"
  ensure (0 ≤ version) "bad key_version"
  let vf ← getNum obj "valid_from" "bad validity window"
  let exp ← getNum obj "expires_at" "bad validity window"
  ensure (exp.le vf = false) "bad validity window"
  ensure (isHex64At obj "canary_hash" = true) "bad canary_hash"
  ensure ((getStr obj "lease_id").any is_hex32 = true ∧ getStr obj "lease_id" =
    some (String.ofList ((digest C (leaseBody obj)).toList.take 32)))
    "lease_id does not commit to the lease"

/-- Signed by a trusted broker, in good shape, and for a node of the mesh. -/
def check_lease (obj : Value F) : Check Unit := do
  signedBy C obj LEASE "broker" trust.brokers
  lease_shape C obj
  ensure ((getStr obj "subject").any trust.mesh = true) "the lease is for a node outside the mesh"

def check_lease_revocation (obj : Value F) : Check Unit := do
  signedBy C obj LEASE_REVOCATION "broker" trust.brokers
  let listed ← orRefuse (getArr obj "lease_ids") "bad lease_ids"
  ensure (1 ≤ listed.length ∧ listed.length ≤ MAX_REVOKED) "bad lease_ids"
  let ids ← orRefuse (strList (get obj "lease_ids")) "bad lease_ids"
  ensure (Sorted ids ∧ ids.all is_hex32 = true) "bad lease_ids"
  ensure ((getStr obj "reason").isSome = true) "bad revocation"
  let _ ← getNum obj "issued_at" "bad revocation"

/-! ## The canary -/

/-- The canary that the text begins with. -/
def canaryAt (cs : List Char) : Option String :=
  let token := cs.take 37
  if "sdgc_".toList.isPrefixOf cs ∧ token.length = 37 ∧ (token.drop 5).all isHexDigit = true then
    some (String.ofList token)
  else none

/-- The canaries in a text; none begins inside another. -/
def canaries : List Char → List String
  | [] => []
  | c :: cs => (canaryAt (c :: cs)).toList ++ canaries cs

def canary_hash (canary : String) : String :=
  String.ofList ((C.sha256 canary.toUTF8).flatMap hexByte)

def canary_leaked (output lease_canary_hash : String) : Bool :=
  (canaries output.toList).any (fun token => decide (canary_hash C token = lease_canary_hash))

end

/-! ## The leases a participant knows of -/

/-- The verified leases, by lease id and oldest first, and the ids revoked. -/
structure LeaseBook (F : Type) where
  leases : List (String × Value F) := []
  revoked : Finset String := ∅

section

variable {F : Type} [PyNumber F] (C : Crypto) (trust : TrustRoots)

/-- A member of a lease that was verified. -/
def numOf (lease : Value F) (k : String) : Num F :=
  match numAt lease k with
  | .ok (some n) => n
  | _ => .int 0

namespace LeaseBook

variable (b : LeaseBook F)

/-- Remembers a lease that verifies and is new. -/
def add (lease : Value F) : LeaseBook F :=
  match check_lease C trust lease, getStr lease "lease_id" with
  | .ok (), some lid =>
      if lid ∈ b.revoked ∨ lid ∈ b.leases.map Prod.fst then b
      else { b with leases := b.leases ++ [(lid, lease)] }
  | _, _ => b

def revoke (obj : Value F) : LeaseBook F :=
  match check_lease_revocation C trust obj, strList (get obj "lease_ids") with
  | .ok (), some ids =>
      { leases := b.leases.filter (fun e => decide (e.1 ∉ ids))
        revoked := b.revoked ∪ ids.toFinset }
  | _, _ => b

/-- Whether the lease entitles the provider to answer with the model now. -/
def check (lease : Value F) (provider model : String) (now skew : F) : Check Unit := do
  check_lease C trust lease
  ensure (getStr lease "subject" = some provider) "the lease is for another node"
  ensure (getStr lease "model" = some model) "the lease is for another model"
  ensure (∀ lid ∈ getStr lease "lease_id", lid ∉ b.revoked) "the lease is revoked"
  let opens ← Num.sub (numOf lease "valid_from") (.float skew)
  let closes ← Num.add (numOf lease "expires_at") (.float skew)
  ensure (opens.le (.float now) = true ∧ Num.lt (.float now) closes = true)
    "the lease is outside its validity window"

/-- In its window now. -/
def isLive (now : F) (lease : Value F) : Bool :=
  (numOf lease "valid_from").le (.float now) && Num.lt (.float now) (numOf lease "expires_at")

/-- The order of `eligible`: newest key version first, then by provider, by
model, and the one that expires last. -/
def prefers (a b : Value F) : Bool :=
  let va := (getInt a "key_version").getD 0
  let vb := (getInt b "key_version").getD 0
  let sa := (getStr a "subject").getD ""
  let sb := (getStr b "subject").getD ""
  let ma := (getStr a "model").getD ""
  let mb := (getStr b "model").getD ""
  if va ≠ vb then decide (vb < va)
  else if sa ≠ sb then decide (sa < sb)
  else if ma ≠ mb then decide (ma < mb)
  else (numOf b "expires_at").le (numOf a "expires_at")

/-- What a lease is for: a provider and a model. -/
def entitles (lease : Value F) : String × String :=
  ((getStr lease "subject").getD "", (getStr lease "model").getD "")

/-- The live leases on one of the models, one for each provider and model. -/
def eligible (models : List String) (now : F) : List (String × String × Value F) :=
  let live := (b.leases.map Prod.snd).filter
    (fun lease => decide ((entitles lease).2 ∈ models) && isLive now lease)
  let ordered := live.mergeSort prefers
  (firstPer entitles ordered).map (fun lease => ((entitles lease).1, (entitles lease).2, lease))

def prune (now : F) : LeaseBook F :=
  { b with leases := b.leases.filter (fun e => !(numOf e.2 "expires_at").le (.float now)) }

end LeaseBook

end

end Secdogie.Inference
