/-
# `Secdogie.Identity.Signing` — signed JSON payloads, as the Python side has them

A signed message is its payload and two more members, `signer` and `sig`.
The signature is over the canonical bytes of the payload, which are those of
`Secdogie.Graph.Canon`.

The digest, base64, the did:key reader and the signature scheme are one
record, `Crypto`, and a trust set is its `contains`.
-/
import Secdogie.Graph.Delta

namespace Secdogie.Identity

open Secdogie.Graph

structure Crypto where
  /-- `hashlib.sha256(..).digest()` -/
  sha256 : ByteArray → List UInt8
  /-- `base64.b64decode(.., validate=True)` -/
  b64decode : String → Option (List UInt8)
  /-- `pubkey_from_did` -/
  publicKey : String → Option (List UInt8)
  /-- `PublicIdentity.verify` -/
  verify : List UInt8 → ByteArray → List UInt8 → Bool

/-- A scheme under which every text is a key and every signature is valid. -/
def Crypto.lenient : Crypto where
  sha256 _ := List.replicate 32 0
  b64decode _ := some []
  publicKey _ := some []
  verify _ _ _ := true

section

variable {F : Type} [FloatCodec F]

def canonical (v : Value F) : ByteArray := toBytes v

/-- `hexdigest` of the canonical bytes. -/
def digest (C : Crypto) (v : Value F) : String :=
  String.ofList ((C.sha256 (canonical v)).flatMap hexByte)

/-- A key pair: what it signs verifies under the key its DID names. -/
structure Signer (C : Crypto) where
  did : String
  /-- the signature, in base64 -/
  sign : ByteArray → String
  key : List UInt8
  key_of_did : C.publicKey did = some key
  verifies : ∀ message, ∃ sig, C.b64decode (sign message) = some sig ∧
    C.verify key message sig = true

/-- The payload with its envelope. -/
def sign_payload {C : Crypto} (identity : Signer C) (m : List (String × Value F)) : Value F :=
  .obj (objInsert "sig" (.str (identity.sign (canonical (.obj m))))
    (objInsert "signer" (.str identity.did) m))

/-- Whether the object is validly signed by someone on the trust set, and by
whom it is signed, if validly. -/
def verifyPayload (C : Crypto) (trust : String → Bool) (v : Value F) : Bool × Option String :=
  match v.asObj with
  | none => (false, none)
  | some m =>
      match objGet m "signer", objGet m "sig" with
      | some (.str signer), some (.str sig_b64) =>
          match C.publicKey signer, C.b64decode sig_b64 with
          | some pub, some sig =>
              if !C.verify pub (canonical (payloadOf m)) sig then (false, none)
              else if !trust signer then (false, some signer)
              else (true, some signer)
          | _, _ => (false, none)
      | _, _ => (false, none)

end

/-! ## What is signed verifies -/

theorem objGet_objInsert_self {V : Type} (k : String) (v : V) :
    ∀ m : List (String × V), objGet (objInsert k v m) k = some v
  | [] => by simp [objInsert, objGet]
  | e :: rest => by
      have ih := objGet_objInsert_self k v rest
      rw [objInsert]
      split_ifs with hlt heq
      · simp [objGet]
      · simp [objGet]
      · have hne : (e.1 == k) = false := beq_eq_false_iff_ne.mpr (Ne.symm heq)
        rw [objGet, List.find?_cons, hne]
        exact ih

theorem objGet_objInsert_ne {V : Type} {k k' : String} (h : k' ≠ k) (v : V) :
    ∀ m : List (String × V), objGet (objInsert k v m) k' = objGet m k'
  | [] => by simp [objInsert, objGet, h.symm]
  | e :: rest => by
      have hk : (k == k') = false := beq_eq_false_iff_ne.mpr h.symm
      have ih := objGet_objInsert_ne h v rest
      rw [objInsert]
      split_ifs with hlt heq
      · simp [objGet, hk]
      · subst heq
        simp [objGet, hk]
      · rw [objGet, objGet, List.find?_cons, List.find?_cons]
        cases e.1 == k' with
        | true => rfl
        | false => exact ih

theorem filter_objInsert {V : Type} {p : String → Bool} {k : String} (h : p k = false) (v : V) :
    ∀ m : List (String × V),
      (objInsert k v m).filter (fun e => p e.1) = m.filter (fun e => p e.1)
  | [] => by simp [objInsert, h]
  | e :: rest => by
      rw [objInsert]
      split_ifs with hlt heq
      · simp [h]
      · subst heq
        simp [h]
      · rw [List.filter_cons, List.filter_cons, filter_objInsert h v rest]

theorem payloadOf_sign {F : Type} {m : List (String × Value F)}
    (h : ∀ e ∈ m, e.1 ≠ "signer" ∧ e.1 ≠ "sig") (v w : Value F) :
    payloadOf (objInsert "sig" v (objInsert "signer" w m)) = .obj m := by
  have hp : ∀ e ∈ m, (e.1 != "signer" && e.1 != "sig") = true := fun e he => by
    simpa [Bool.and_eq_true] using h e he
  have hsig := filter_objInsert (p := fun k => k != "signer" && k != "sig") (k := "sig")
    (by decide) v (objInsert "signer" w m)
  have hsigner := filter_objInsert (p := fun k => k != "signer" && k != "sig") (k := "signer")
    (by decide) w m
  rw [payloadOf, hsig, hsigner, List.filter_eq_self.mpr hp]

theorem verifyPayload_sign {F : Type} [FloatCodec F] {C : Crypto} (identity : Signer C)
    {m : List (String × Value F)} (h : ∀ e ∈ m, e.1 ≠ "signer" ∧ e.1 ≠ "sig")
    {trust : String → Bool} (ht : trust identity.did = true) :
    verifyPayload C trust (sign_payload identity m) = (true, some identity.did) := by
  obtain ⟨sig, hdecode, hverify⟩ := identity.verifies (canonical (.obj m))
  have hsigner : objGet (objInsert "sig" (.str (identity.sign (canonical (.obj m))))
      (objInsert "signer" (.str identity.did) m)) "signer" = some (.str identity.did) :=
    (objGet_objInsert_ne (by decide) _ _).trans (objGet_objInsert_self _ _ _)
  rw [verifyPayload, sign_payload]
  dsimp only [Value.asObj]
  rw [hsigner, objGet_objInsert_self]
  dsimp only
  rw [identity.key_of_did, hdecode]
  dsimp only
  rw [payloadOf_sign h, hverify, ht]
  rfl

end Secdogie.Identity
