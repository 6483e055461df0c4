/-
# `Secdogie.Identity.Encoded` — verifying what has no canonical bytes

A signed object comes from anywhere: any JSON value that `json.loads` may give, with
integers of any size and with strings that hold lone surrogates.  The envelope is
taken apart inside a `try`, but the payload is encoded outside of it.
`canonical_ok_iff` says which payloads have canonical bytes; of the others
`verify_payload` says nothing, it raises (`verify_payload_raises`).
-/
import Secdogie.Agent.Trace
import Secdogie.Lib.JsonEncode

namespace Secdogie.Identity.Encoded

open Secdogie.Json
open Agent (isScalar encode encode_all encode_of_all isScalar_plain)

/-- The exceptions that are not caught. -/
inductive Raised where
  /-- of `json.dumps`: a `RecursionError`, or the `ValueError` of an integer of too many digits -/
  | dumps
  /-- `UnicodeEncodeError`, of a lone surrogate -/
  | encode
  /-- `OverflowError`, of an integer that is no float -/
  | overflow
deriving DecidableEq

/-- What is imported: the exceptions of the first two are caught. -/
structure Keys where
  /-- `PublicIdentity.from_did` -/
  from_did : Str → Option (List UInt8)
  /-- `base64.b64decode(.., validate=True)` -/
  b64decode : Str → Option (List UInt8)
  /-- `PublicIdentity.verify` -/
  verify : List UInt8 → ByteArray → List UInt8 → Bool

section

variable (R : Numerals) (room : ℕ) (K : Keys)

def canonical (payload : Dict) : Except Raised ByteArray :=
  match dumps R [] room (sorted (.obj payload)) with
  | none => .error .dumps
  | some s =>
      match encode s with
      | none => .error .encode
      | some b => .ok b

/-- Without `_ENVELOPE_KEYS`. -/
def payloadOf (m : Dict) : Dict :=
  m.filter (fun x => x.1 ≠ Str.of "signer" ∧ x.1 ≠ Str.of "sig")

/-- The signer, its key and the signature, if the envelope is well-formed. -/
def envelope (m : Dict) : Option (Str × List UInt8 × List UInt8) :=
  match get m (Str.of "signer"), get m (Str.of "sig") with
  | some (.str signer), some (.str sig_b64) =>
      match K.from_did signer, K.b64decode sig_b64 with
      | some pub, some sig => some (signer, pub, sig)
      | _, _ => none
  | _, _ => none

def verify_payload (allowlist : Option (Str → Bool)) (obj : Json) :
    Except Raised (Bool × Option Str) :=
  match obj with
  | .obj m =>
      match envelope K m with
      | none => .ok (false, none)
      | some (signer, pub, sig) =>
          match canonical R room (payloadOf m) with
          | .error e => .error e
          | .ok message =>
              if ¬ K.verify pub message sig then .ok (false, none)
              else if allowlist.any (fun contains => !contains signer) then .ok (false, some signer)
              else .ok (true, some signer)
  | _ => .ok (false, none)

end

/-! ## Payloads that are encoded -/

variable {R : Numerals} {room : ℕ} {K : Keys}

/-- The payload is not too deep, its numbers are printed, and its strings have no surrogates. -/
structure Encodable (R : Numerals) (room : ℕ) (payload : Dict) : Prop where
  fits : fits R room (.obj payload) = true
  scalar : Spelled (fun c => isScalar c = true) (.obj payload)

theorem text_scalar_iff {v : Json} (hfits : Json.fits R room v = true) :
    (text R [] v).all isScalar = true ↔ Spelled (fun c => isScalar c = true) v := by
  rw [List.all_eq_true]
  constructor
  · exact spelled_of_text (fun c hc => isScalar_plain hc) v
  · intro hspelled
    have hwritten : Written (fun c => isScalar c = true) (fun c => isScalar c = true) [] :=
      { plain := fun c _ hc => isScalar_plain hc
        kept := fun c _ hc => hc
        pad := fun c hc => absurd hc List.not_mem_nil }
    exact text_spelled hwritten v room hfits hspelled

theorem canonical_ok_iff {payload : Dict} :
    (∃ b, canonical R room payload = .ok b) ↔ Encodable R room payload := by
  have hfits : Json.fits R room (sorted (.obj payload)) = Json.fits R room (.obj payload) :=
    fits_sorted_eq (.obj payload) room
  unfold canonical dumps
  rw [hfits]
  by_cases hroom : Json.fits R room (.obj payload) = true
  · rw [if_pos hroom]
    have hscalar := (text_scalar_iff (hfits.trans hroom)).trans (spelled_sorted_iff (.obj payload))
    dsimp only
    cases hencode : encode (text R [] (sorted (.obj payload))) with
    | none =>
        refine iff_of_false (fun ⟨b, hb⟩ => nomatch hb) (fun h => ?_)
        obtain ⟨b, hb⟩ := encode_of_all (hscalar.mpr h.scalar)
        rw [hencode] at hb
        exact nomatch hb
    | some b => exact iff_of_true ⟨b, rfl⟩ ⟨hroom, hscalar.mp (encode_all hencode)⟩
  · rw [if_neg hroom]
    exact iff_of_false (fun ⟨b, hb⟩ => nomatch hb) (fun h => hroom h.fits)

theorem canonical_raises {payload : Dict} (h : ¬ Encodable R room payload) :
    ∃ e, canonical R room payload = .error e := by
  cases hcanonical : canonical R room payload with
  | error e => exact ⟨e, rfl⟩
  | ok b => exact absurd (canonical_ok_iff.mp ⟨b, hcanonical⟩) h

/-- The object is validly signed by the signer, and the allowlist has it, if there is one. -/
structure Signed (R : Numerals) (room : ℕ) (K : Keys) (allowlist : Option (Str → Bool)) (m : Dict)
    (signer : Str) : Prop where
  valid : ∃ pub sig message, envelope K m = some (signer, pub, sig) ∧
    canonical R room (payloadOf m) = .ok message ∧ K.verify pub message sig = true
  allowed : ∀ contains, allowlist = some contains → contains signer = true

theorem Signed.unique {allowlist : Option (Str → Bool)} {m : Dict} {signer signer' : Str}
    (h : Signed R room K allowlist m signer)
    (h' : Signed R room K allowlist m signer') : signer' = signer := by
  obtain ⟨pub, sig, message, henvelope, _⟩ := h.valid
  obtain ⟨pub', sig', message', henvelope', _⟩ := h'.valid
  rw [henvelope, Option.some.injEq, Prod.mk.injEq] at henvelope'
  exact henvelope'.1.symm

/-- What `verify_payload` makes of an object: it raises on a payload that cannot be encoded, once
the envelope is well-formed. -/
theorem verify_payload_cases (allowlist : Option (Str → Bool)) (m : Dict) :
    ((envelope K m).isSome = true ∧ ¬ Encodable R room (payloadOf m) ∧
        ∃ e, verify_payload R room K allowlist (.obj m) = .error e) ∨
      ((envelope K m).isSome = true → Encodable R room (payloadOf m)) ∧
        ((∃ signer, Signed R room K allowlist m signer ∧
            verify_payload R room K allowlist (.obj m) = .ok (true, some signer)) ∨
          ∃ signer, verify_payload R room K allowlist (.obj m) = .ok (false, signer) ∧
            ∀ signer', ¬ Signed R room K allowlist m signer') := by
  cases henvelope : envelope K m with
  | none =>
      refine .inr ⟨fun h => (nomatch h), .inr ⟨none, ?_, fun signer' hsigned => ?_⟩⟩
      · rw [verify_payload, henvelope]
      · obtain ⟨pub, sig, message, hsome, _⟩ := hsigned.valid
        rw [henvelope] at hsome
        exact nomatch hsome
  | some parts =>
      obtain ⟨signer, pub, sig⟩ := parts
      by_cases hencodable : Encodable R room (payloadOf m)
      · obtain ⟨message, hmessage⟩ := canonical_ok_iff.mpr hencodable
        have heq : verify_payload R room K allowlist (.obj m) =
            if ¬ K.verify pub message sig then .ok (false, none)
            else if allowlist.any (fun contains => !contains signer) then .ok (false, some signer)
            else .ok (true, some signer) := by
          rw [verify_payload, henvelope]
          dsimp only
          rw [hmessage]
        refine .inr ⟨fun _ => hencodable, ?_⟩
        have hparts : ∀ signer', Signed R room K allowlist m signer' →
            signer' = signer ∧ K.verify pub message sig = true := by
          intro signer' hsigned
          obtain ⟨pub', sig', message', hsome, hmessage', hverify⟩ := hsigned.valid
          rw [henvelope, Option.some.injEq, Prod.mk.injEq, Prod.mk.injEq] at hsome
          rw [hmessage, Except.ok.injEq] at hmessage'
          obtain ⟨hsigner, hpub, hsig⟩ := hsome
          subst hsigner hpub hsig hmessage'
          exact ⟨rfl, hverify⟩
        by_cases hverify : K.verify pub message sig = true
        · rw [if_neg (not_not.mpr hverify)] at heq
          by_cases hno : allowlist.any (fun contains => !contains signer) = true
          · rw [if_pos hno] at heq
            refine .inr ⟨some signer, heq, fun signer' hsigned => ?_⟩
            cases allowlist with
            | none => exact nomatch hno
            | some contains =>
                have hyes := hsigned.allowed contains rfl
                have hnot : (!contains signer) = true := hno
                rw [(hparts signer' hsigned).1] at hyes
                rw [hyes] at hnot
                exact Bool.false_ne_true hnot
          · rw [if_neg hno] at heq
            refine .inl ⟨signer, ⟨⟨pub, sig, message, henvelope, hmessage, hverify⟩, ?_⟩, heq⟩
            rintro contains rfl
            simpa using hno
        · rw [if_pos hverify] at heq
          exact .inr ⟨none, heq, fun signer' hsigned => hverify (hparts signer' hsigned).2⟩
      · obtain ⟨e, he⟩ := canonical_raises hencodable
        refine .inl ⟨rfl, hencodable, e, ?_⟩
        rw [verify_payload, henvelope]
        dsimp only
        rw [he]

end Secdogie.Identity.Encoded
