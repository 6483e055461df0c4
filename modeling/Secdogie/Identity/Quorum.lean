/-
# `Secdogie.Identity.Quorum` — who signed a revocation

A record counts a master once, and only for a signature over its own body; what
else its `sigs` hold is passed over.  Therefore a record that verifies has its
quorum, and verifies whatever is added to its signatures and however they are
ordered: `revocation_quorum`.
-/
import Secdogie.Identity.Revocation

namespace Secdogie.Identity

open Secdogie.Graph

section

variable {F : Type}

/-- The entry holds a valid signature of the message by this signer. -/
def SignedBy (C : Crypto) (message : ByteArray) (entry : Value F) (signer : String) : Prop :=
  textField entry "signer" = some signer ∧
    ∃ sig_b64 sig pub, textField entry "sig" = some sig_b64 ∧ C.b64decode sig_b64 = some sig ∧
      C.publicKey signer = some pub ∧ C.verify pub message sig = true

/-- A master, and none of those excluded. -/
def MayCount (masters : MasterSet) (exclude : List String) (signer : String) : Prop :=
  signer ∈ masters.dids ∧ signer ∉ exclude

/-- The list of signatures of an object. -/
def sigsOf (obj : Value F) : Option (List (Value F)) := (field obj "sigs").bind Value.asArr

variable [PyFloat F] {C : Crypto} {masters : MasterSet} {exclude : List String}
  {message : ByteArray}

/-! ## One entry, and all of them -/

omit [PyFloat F] in
theorem countSignature_eq {good : List String} {entry : Value F} {signer : String}
    (hsigned : SignedBy C message entry signer) (hmay : MayCount masters exclude signer)
    (hnew : signer ∉ good) : countSignature C masters exclude message good entry = good ++ [signer] := by
  obtain ⟨hsigner, sig_b64, sig, pub, hsig, hdecode, hkey, hverify⟩ := hsigned
  have hguard : ¬ (signer ∈ good ∨ signer ∈ exclude ∨ masters.contains signer = false) := by
    rintro (hold | hexcluded | hforeign)
    · exact hnew hold
    · exact hmay.2 hexcluded
    · exact of_decide_eq_false hforeign hmay.1
  rw [countSignature, hsigner, hsig]
  dsimp only
  rw [if_neg hguard, hdecode, hkey]
  dsimp only
  rw [if_pos hverify]

omit [PyFloat F] in
/-- An entry adds the signer whose valid signature it holds, or nothing. -/
theorem countSignature_cases (C : Crypto) (masters : MasterSet) (exclude : List String)
    (message : ByteArray) (good : List String) (entry : Value F) :
    countSignature C masters exclude message good entry = good ∨
      ∃ signer, SignedBy C message entry signer ∧ MayCount masters exclude signer ∧ signer ∉ good ∧
        countSignature C masters exclude message good entry = good ++ [signer] := by
  rw [countSignature]
  split
  · next signer sig_b64 hsigner hsig =>
      split
      · exact .inl rfl
      · next hguard =>
          simp only [not_or, Bool.not_eq_false] at hguard
          obtain ⟨hnew, hkept, hmaster⟩ := hguard
          split
          · next sig pub hdecode hkey =>
              split
              · next hverify =>
                  exact .inr ⟨signer, ⟨hsigner, sig_b64, sig, pub, hsig, hdecode, hkey, hverify⟩,
                    ⟨of_decide_eq_true hmaster, hkept⟩, hnew, rfl⟩
              · exact .inl rfl
          · exact .inl rfl
  · exact .inl rfl

omit [PyFloat F] in
theorem mem_countSignature {good : List String} {entry : Value F} {s : String} :
    s ∈ countSignature C masters exclude message good entry ↔
      s ∈ good ∨ (SignedBy C message entry s ∧ MayCount masters exclude s) := by
  constructor
  · intro hs
    rcases countSignature_cases C masters exclude message good entry with
      heq | ⟨signer, hsigned, hmay, -, heq⟩
    · exact .inl (heq ▸ hs)
    · rw [heq, List.mem_append, List.mem_singleton] at hs
      rcases hs with hs | rfl
      · exact .inl hs
      · exact .inr ⟨hsigned, hmay⟩
  · intro hs
    by_cases hold : s ∈ good
    · rcases countSignature_cases C masters exclude message good entry with heq | ⟨_, _, _, _, heq⟩
      · rwa [heq]
      · rw [heq]
        exact List.mem_append_left _ hold
    · obtain ⟨hsigned, hmay⟩ := hs.resolve_left hold
      rw [countSignature_eq hsigned hmay hold]
      exact List.mem_append_right _ (List.mem_singleton_self s)

omit [PyFloat F] in
theorem countSignature_nodup {good : List String} (hgood : good.Nodup) (entry : Value F) :
    (countSignature C masters exclude message good entry).Nodup := by
  rcases countSignature_cases C masters exclude message good entry with heq | ⟨s, -, -, hnew, heq⟩
  · rwa [heq]
  · rw [heq]
    exact List.nodup_append.mpr ⟨hgood, List.nodup_singleton s, fun a ha b hb => by
      obtain rfl := List.mem_singleton.mp hb
      exact fun heq => hnew (heq ▸ ha)⟩

omit [PyFloat F] in
/-- The masters whose signature is among the entries, and those counted before. -/
theorem mem_foldl_countSignature {s : String} : ∀ (sigs : List (Value F)) (good : List String),
    s ∈ sigs.foldl (countSignature C masters exclude message) good ↔
      s ∈ good ∨ ((∃ entry ∈ sigs, SignedBy C message entry s) ∧ MayCount masters exclude s)
  | [], good => by simp
  | entry :: sigs, good => by
      rw [List.foldl_cons, mem_foldl_countSignature sigs, mem_countSignature, List.exists_mem_cons_iff]
      constructor
      · rintro ((hold | ⟨hsigned, hmay⟩) | ⟨hlater, hmay⟩)
        · exact .inl hold
        · exact .inr ⟨.inl hsigned, hmay⟩
        · exact .inr ⟨.inr hlater, hmay⟩
      · rintro (hold | ⟨hsigned | hlater, hmay⟩)
        · exact .inl (.inl hold)
        · exact .inl (.inr ⟨hsigned, hmay⟩)
        · exact .inr ⟨hlater, hmay⟩

omit [PyFloat F] in
theorem foldl_countSignature_nodup : ∀ (sigs : List (Value F)) {good : List String}, good.Nodup →
    (sigs.foldl (countSignature C masters exclude message) good).Nodup
  | [], _, hgood => hgood
  | entry :: sigs, _, hgood => foldl_countSignature_nodup sigs (countSignature_nodup hgood entry)

/-! ## A record that verifies -/

/-- All that an object is checked for besides its signatures. -/
structure WellFormed (C : Crypto) (obj : Value F) (revoked : List String) (reason : String)
    (issued_at : F) : Prop where
  type : textField obj "type" = some REVOCATION_TYPE
  listed : texts (field obj "revoked") = some revoked
  explained : textField obj "reason" = some reason
  dated : ∃ v, field obj "issued_at" = some v ∧ isNumber v = true ∧ toFloat v = some issued_at
  length : 1 ≤ revoked.length ∧ revoked.length ≤ MAX_REVOKED
  sorted : revoked.Pairwise (· < ·)
  keys : revoked.any (fun did => (C.publicKey did).isNone) = false
  id : textField obj "record_id" = some (digest C (revocationBody revoked reason issued_at))

/-- Those who are counted for this body. -/
def signers (C : Crypto) (masters : MasterSet) (exclude : List String) (body : Value F)
    (sigs : List (Value F)) : List String :=
  sigs.foldl (countSignature C masters exclude (canonical body)) []

theorem mem_signers {body : Value F} {sigs : List (Value F)} {s : String} :
    s ∈ signers C masters exclude body sigs ↔
      (∃ entry ∈ sigs, SignedBy C (canonical body) entry s) ∧ MayCount masters exclude s := by
  rw [signers, mem_foldl_countSignature, or_iff_right List.not_mem_nil]

theorem signers_nodup (body : Value F) (sigs : List (Value F)) :
    (signers C masters exclude body sigs).Nodup :=
  foldl_countSignature_nodup sigs List.nodup_nil

/-- A record verifies when it is well-formed and has its quorum. -/
theorem verify_revocation_iff {obj : Value F} {r : RevocationRecord F} :
    verify_revocation C masters exclude obj = some r ↔
      ∃ revoked sigs, WellFormed C obj revoked r.reason r.issued_at ∧ sigsOf obj = some sigs ∧
        r.revoked = revoked.toFinset ∧
        r.record_id = digest C (revocationBody revoked r.reason r.issued_at) ∧
        r.signers = signers C masters exclude (revocationBody revoked r.reason r.issued_at) sigs ∧
        masters.threshold ≤ r.signers.length := by
  constructor
  · intro h
    unfold verify_revocation at h
    split at h
    · exact nomatch h
    next htype =>
    split at h
    · next revoked reason v sigs hrevoked hreason hat hsigs =>
        split at h
        · exact nomatch h
        next hlist =>
        split at h
        · exact nomatch h
        next hkeys =>
        split at h
        · exact nomatch h
        next issued_at hfloat =>
        dsimp only at h
        split at h
        · exact nomatch h
        next hid =>
        split at h
        · exact nomatch h
        next hgood =>
        obtain rfl := Option.some.inj h
        rw [not_or, not_not, not_not] at hlist
        rw [not_or, Bool.not_eq_true, Bool.not_eq_false] at hkeys
        refine ⟨revoked, sigs, ⟨not_not.mp htype, hrevoked, hreason, ⟨v, hat, hkeys.2, hfloat⟩,
          hlist.1, hlist.2, hkeys.1, not_not.mp hid⟩, hsigs, rfl, rfl, rfl, not_lt.mp hgood⟩
    · exact nomatch h
  · rintro ⟨revoked, sigs, hwf, hsigs, hrevoked, hid, hsigners, hgood⟩
    obtain ⟨v, hat, hnum, hfloat⟩ := hwf.dated
    obtain ⟨record_id, revoked', reason, issued_at, good⟩ := r
    dsimp only at *
    subst hrevoked hid hsigners
    exact verify_revocation_eq hwf.type hwf.listed hwf.explained hat hsigs hwf.length hwf.sorted
      hwf.keys hnum hfloat hwf.id hgood

/-- What is checked besides the signatures does not depend on them. -/
theorem WellFormed.of_agree {obj obj' : Value F} {revoked : List String} {reason : String}
    {issued_at : F} (h : WellFormed C obj revoked reason issued_at)
    (hagree : ∀ k, k ≠ "sigs" → field obj' k = field obj k) :
    WellFormed C obj' revoked reason issued_at where
  type := by rw [textField, hagree "type" (by decide)]; exact h.type
  listed := by rw [hagree "revoked" (by decide)]; exact h.listed
  explained := by rw [textField, hagree "reason" (by decide)]; exact h.explained
  dated := by rw [hagree "issued_at" (by decide)]; exact h.dated
  length := h.length
  sorted := h.sorted
  keys := h.keys
  id := by rw [textField, hagree "record_id" (by decide)]; exact h.id

/-- More entries, in any order, count no fewer masters. -/
theorem length_signers_mono {body : Value F} {sigs sigs' : List (Value F)}
    (h : ∀ entry ∈ sigs, entry ∈ sigs') :
    (signers C masters exclude body sigs).length ≤ (signers C masters exclude body sigs').length := by
  refine (List.subperm_of_subset (signers_nodup body sigs) fun s hs => ?_).length_le
  obtain ⟨⟨entry, hmem, hsigned⟩, hmay⟩ := mem_signers.mp hs
  exact mem_signers.mpr ⟨⟨entry, h entry hmem, hsigned⟩, hmay⟩

/-- A record that verifies was signed by as many masters as must agree; with further entries
among its signatures, in any order, it still verifies. -/
theorem revocation_quorum (C : Crypto) (masters : MasterSet) (exclude : List String) :
    (∀ (obj : Value F) (r : RevocationRecord F), verify_revocation C masters exclude obj = some r →
      r.signers.Nodup ∧ masters.threshold ≤ r.signers.length ∧
      ∃ body ∈ Bodies [obj], ∃ sigs, sigsOf obj = some sigs ∧ r.record_id = digest C body ∧
        ∀ s ∈ r.signers, MayCount masters exclude s ∧
          ∃ entry ∈ sigs, SignedBy C (canonical body) entry s) ∧
    (∀ (obj obj' : Value F) (sigs sigs' : List (Value F)) (r : RevocationRecord F),
      sigsOf obj = some sigs → sigsOf obj' = some sigs' → (∀ entry ∈ sigs, entry ∈ sigs') →
      (∀ k, k ≠ "sigs" → field obj' k = field obj k) →
      verify_revocation C masters exclude obj = some r →
        ∃ r', verify_revocation C masters exclude obj' = some r' ∧ r'.record_id = r.record_id ∧
          r'.revoked = r.revoked ∧ ∀ s ∈ r.signers, s ∈ r'.signers) := by
  constructor
  · intro obj r h
    obtain ⟨revoked, sigs, hwf, hsigs, -, hid, hsigners, hgood⟩ := verify_revocation_iff.mp h
    obtain ⟨v, hat, -, hfloat⟩ := hwf.dated
    refine ⟨hsigners ▸ signers_nodup _ sigs, hgood, revocationBody revoked r.reason r.issued_at,
      ⟨obj, List.mem_singleton_self obj, revoked, r.reason, r.issued_at, hwf.listed, hwf.explained,
        by rw [hat]; exact hfloat, rfl⟩, sigs, hsigs, hid, fun s hs => ?_⟩
    rw [hsigners] at hs
    exact (mem_signers.mp hs).symm
  · intro obj obj' sigs sigs' r hsigs hsigs' hsub hagree h
    obtain ⟨revoked, sigs₀, hwf, hsigs₀, hrevoked, hid, hsigners, hgood⟩ := verify_revocation_iff.mp h
    obtain rfl := Option.some.inj (hsigs₀.symm.trans hsigs)
    have hle : (signers C masters exclude (revocationBody revoked r.reason r.issued_at) sigs₀).length ≤
        (signers C masters exclude (revocationBody revoked r.reason r.issued_at) sigs').length :=
      length_signers_mono hsub
    refine ⟨⟨r.record_id, r.revoked, r.reason, r.issued_at, signers C masters exclude
        (revocationBody revoked r.reason r.issued_at) sigs'⟩, verify_revocation_iff.mpr
      ⟨revoked, sigs', hwf.of_agree hagree, hsigs', hrevoked, hid, rfl, ?_⟩, rfl, rfl, ?_⟩
    · exact (hsigners ▸ hgood).trans hle
    · intro s hs
      rw [hsigners] at hs
      obtain ⟨⟨entry, hmem, hsigned⟩, hmay⟩ := mem_signers.mp hs
      exact mem_signers.mpr ⟨⟨entry, hsub entry hmem, hsigned⟩, hmay⟩

end

end Secdogie.Identity
