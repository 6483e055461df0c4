/-
# `Secdogie.Identity.Verified` — what a verified payload says

An object that verifies names its signer, the signer is on the trust set, and
the signature in it is the signer's, over everything else in it.
-/
import Secdogie.Identity.Signing

namespace Secdogie.Identity

open Secdogie.Graph

section

variable {F : Type} [FloatCodec F] {C : Crypto} {trust : String → Bool}

/-- The object carries a good signature of the signer over its payload. -/
structure SignedAs (C : Crypto) (m : List (String × Value F)) (signer : String) : Prop where
  named : objGet m "signer" = some (.str signer)
  signed : ∃ sig_b64 key sig, objGet m "sig" = some (.str sig_b64) ∧ C.publicKey signer = some key ∧
    C.b64decode sig_b64 = some sig ∧ C.verify key (canonical (payloadOf m)) sig = true

/-- What verifies is an object that a trusted signer signed. -/
theorem signedAs_of_verifyPayload {v : Value F} {signer : Option String}
    (h : verifyPayload C trust v = (true, signer)) :
    ∃ m s, v = .obj m ∧ signer = some s ∧ trust s = true ∧ SignedAs C m s := by
  unfold verifyPayload at h
  split at h
  · exact nomatch h
  next m hobj =>
  have hv : v = .obj m := by
    cases v with
    | obj m' => rw [Option.some.inj hobj]
    | _ => exact nomatch hobj
  split at h
  · next s sig_b64 hsigner hsig_b64 =>
      split at h
      · next key sig hkey hsig =>
          split_ifs at h with hverify htrust
          · exact nomatch h
          · exact nomatch h
          · rw [Bool.not_eq_true, Bool.not_eq_false'] at hverify htrust
            exact ⟨m, s, hv, ((Prod.mk.inj h).2).symm, htrust,
              hsigner, sig_b64, key, sig, hsig_b64, hkey, hsig, hverify⟩
      · exact nomatch h
  · exact nomatch h

theorem trusted_of_verifyPayload {v : Value F} {signer : String}
    (h : verifyPayload C trust v = (true, some signer)) : trust signer = true := by
  obtain ⟨-, s, -, hs, htrust, -⟩ := signedAs_of_verifyPayload h
  rwa [Option.some.inj hs]

end

end Secdogie.Identity
