/-
# `Secdogie.Identity.Trust` — merging revocations into a trust policy

A record is verified, remembered under its id, merged into the revoked set,
written to the store and only then announced, in this order and without going
back: a write that raises leaves a record that the policy knows, the store may
not have, and nobody was told of (`merge_atomic_iff`).
-/
import Secdogie.Identity.Policy

namespace Secdogie.Identity

open Secdogie.Graph

structure TrustPolicy (F : Type) where
  allowlist : String → Bool
  masters : Option MasterSet
  /-- it has a store -/
  stored : Bool
  revoked : Finset String := ∅
  /-- the records merged, by id -/
  records : StrMap (RevocationRecord F) := ∅
  version : Nat := 0

def TrustPolicy.contains {F : Type} (p : TrustPolicy F) (did : String) : Bool :=
  p.allowlist did && decide (did ∉ p.revoked)

/-- What becomes of a write. -/
inductive Write where
  | done
  /-- it raises, after so many of its bytes have reached the file -/
  | failed (n : Nat)

section

variable {F : Type} [PyFloat F]

/-- What a store's file is after an append that ends like this. -/
def appendAs (w : Write) (file : Option ByteArray) (obj : Value F) : Option ByteArray :=
  match w with
  | .done => append file obj
  | .failed n => some (file.getD .empty ++ (storeLine obj ++ "\n").toUTF8.extract 0 n)

/-- The record's line is in the file. -/
def Persisted (file : Option ByteArray) (obj : Value F) : Prop :=
  ∃ pre post, file = some (pre ++ (storeLine obj ++ "\n").toUTF8 ++ post)

/-- What a merge leaves. -/
structure Merged (F : Type) where
  policy : TrustPolicy F
  file : Option ByteArray
  /-- the DIDs newly revoked: returned, and told to the subscribers unless empty -/
  newly : Finset String := ∅
  raised : Bool := false

variable (C : Crypto)

/-- `_merge`; `persist` is the fate of the write, if the record is to be
persisted. -/
def TrustPolicy.merge (p : TrustPolicy F) (file : Option ByteArray) (obj : Value F)
    (persist : Option Write) : Merged F :=
  match p.masters with
  | none => ⟨p, file, ∅, false⟩
  | some masters =>
      match verify_revocation C masters [] obj with
      | none => ⟨p, file, ∅, false⟩
      | some record =>
          if p.records.contains record.record_id then ⟨p, file, ∅, false⟩
          else
            let newly := record.revoked \ p.revoked
            let p := { p with
              records := p.records.insert record.record_id record
              revoked := p.revoked ∪ record.revoked }
            let bumped := if newly = ∅ then p else { p with version := p.version + 1 }
            match persist, p.stored with
            | some (.failed n), true => ⟨p, appendAs (.failed n) file obj, ∅, true⟩
            | some .done, true => ⟨bumped, append file obj, newly, false⟩
            | _, _ => ⟨bumped, file, newly, false⟩

/-- `apply`, under this fate of the write. -/
def TrustPolicy.apply (p : TrustPolicy F) (file : Option ByteArray) (obj : Value F) (w : Write) :
    Merged F := p.merge C file obj (some w)

/-- `refresh`, when the store has changed: the records it holds are merged. -/
def TrustPolicy.refresh (p : TrustPolicy F) (file : Option ByteArray) (objs : List (Value F)) :
    TrustPolicy F × Finset String :=
  objs.foldl (fun s obj =>
    let m := s.1.merge C file obj none
    (m.policy, s.2 ∪ m.newly)) (p, ∅)

/-! ## One call -/

/-- If the store fails to persist the record, then either it is fully in
effect, nothing being left to announce, and persisted; or applying it again
does what applying it does the first time. -/
def Atomic (p : TrustPolicy F) (file : Option ByteArray) (obj : Value F) (w : Write) : Prop :=
  (p.apply C file obj w).raised = true →
    (∃ masters record, p.masters = some masters ∧
      verify_revocation C masters [] obj = some record ∧
      record.revoked ⊆ (p.apply C file obj w).policy.revoked ∧ record.revoked ⊆ p.revoked ∧
      Persisted (p.apply C file obj w).file obj) ∨
    let retried := (p.apply C file obj w).policy.apply C (p.apply C file obj w).file obj .done
    retried.raised = false ∧ retried.newly = (p.apply C file obj .done).newly ∧
      Persisted retried.file obj

/-- The write raises on a record that is verified and new. -/
def FailsOn (p : TrustPolicy F) (obj : Value F) (w : Write) (record : RevocationRecord F) : Prop :=
  p.stored = true ∧ w ≠ .done ∧ record.record_id ∉ p.records ∧
    ∃ masters, p.masters = some masters ∧ verify_revocation C masters [] obj = some record

variable {C}

theorem persisted_append (file : Option ByteArray) (obj : Value F) :
    Persisted (append file obj) obj :=
  ⟨file.getD .empty, .empty, by rw [append]; simp⟩

/-- A merge of a verified record that is new. -/
theorem merge_new {p : TrustPolicy F} {obj : Value F} {masters : MasterSet}
    {record : RevocationRecord F} (file : Option ByteArray) (hmasters : p.masters = some masters)
    (hverify : verify_revocation C masters [] obj = some record)
    (hnew : record.record_id ∉ p.records) (persist : Option Write) :
    (p.merge C file obj persist).policy.records = p.records.insert record.record_id record ∧
      (p.merge C file obj persist).policy.revoked = p.revoked ∪ record.revoked ∧
      (p.merge C file obj persist).policy.masters = p.masters ∧
      (p.merge C file obj persist).policy.stored = p.stored := by
  unfold TrustPolicy.merge
  rw [hmasters]
  dsimp only
  rw [hverify]
  dsimp only
  rw [if_neg (by simpa using hnew)]
  split
  · exact ⟨rfl, rfl, hmasters.symm ▸ rfl, rfl⟩
  · split_ifs <;> exact ⟨rfl, rfl, hmasters.symm ▸ rfl, rfl⟩
  · split_ifs <;> exact ⟨rfl, rfl, hmasters.symm ▸ rfl, rfl⟩

/-- A merge of anything else changes nothing. -/
theorem merge_old {p : TrustPolicy F} {file : Option ByteArray} {obj : Value F}
    (h : ∀ masters record, p.masters = some masters →
      verify_revocation C masters [] obj = some record → record.record_id ∈ p.records)
    (persist : Option Write) : p.merge C file obj persist = ⟨p, file, ∅, false⟩ := by
  unfold TrustPolicy.merge
  cases hmasters : p.masters with
  | none => rfl
  | some masters =>
      dsimp only
      cases hverify : verify_revocation C masters [] obj with
      | none => rfl
      | some record =>
          dsimp only
          rw [if_pos (by simpa using h masters record hmasters hverify)]

/-- A call raises just when the write fails on a new record. -/
theorem apply_raised_iff {p : TrustPolicy F} {file : Option ByteArray} {obj : Value F} {w : Write} :
    (p.apply C file obj w).raised = true ↔ ∃ record, FailsOn C p obj w record := by
  rw [TrustPolicy.apply]
  by_cases h : ∃ masters record, p.masters = some masters ∧
      verify_revocation C masters [] obj = some record ∧ record.record_id ∉ p.records
  · obtain ⟨masters, record, hmasters, hverify, hnew⟩ := h
    have hfails : (∃ record, FailsOn C p obj w record) ↔ p.stored = true ∧ w ≠ .done :=
      ⟨fun ⟨_, hstored, hw, _⟩ => ⟨hstored, hw⟩,
        fun ⟨hstored, hw⟩ => ⟨record, hstored, hw, hnew, masters, hmasters, hverify⟩⟩
    rw [hfails]
    unfold TrustPolicy.merge
    rw [hmasters]
    dsimp only
    rw [hverify]
    dsimp only
    rw [if_neg (by simpa using hnew)]
    cases hstored : p.stored with
    | false => cases w <;> simp
    | true => cases w <;> simp
  · have hold : ∀ masters record, p.masters = some masters →
        verify_revocation C masters [] obj = some record → record.record_id ∈ p.records :=
      fun masters record hmasters hverify => by
        by_contra hnew
        exact h ⟨masters, record, hmasters, hverify, hnew⟩
    rw [merge_old hold]
    refine ⟨fun hraised => absurd hraised Bool.false_ne_true, ?_⟩
    rintro ⟨record, -, -, hnew, masters, hmasters, hverify⟩
    exact absurd ⟨masters, record, hmasters, hverify, hnew⟩ h

theorem apply_done_newly {p : TrustPolicy F} {file : Option ByteArray} {obj : Value F}
    {masters : MasterSet} {record : RevocationRecord F} (hmasters : p.masters = some masters)
    (hverify : verify_revocation C masters [] obj = some record)
    (hnew : record.record_id ∉ p.records) :
    (p.apply C file obj .done).newly = record.revoked \ p.revoked := by
  rw [TrustPolicy.apply]
  unfold TrustPolicy.merge
  rw [hmasters]
  dsimp only
  rw [hverify]
  dsimp only
  rw [if_neg (by simpa using hnew)]
  cases hstored : p.stored <;> rfl

theorem file_of_fails {p : TrustPolicy F} {obj : Value F} {w : Write}
    {record : RevocationRecord F} (file : Option ByteArray) (h : FailsOn C p obj w record) :
    (p.apply C file obj w).file = appendAs w file obj := by
  obtain ⟨hstored, hw, hnew, masters, hmasters, hverify⟩ := h
  rw [TrustPolicy.apply]
  unfold TrustPolicy.merge
  rw [hmasters]
  dsimp only
  rw [hverify]
  dsimp only
  rw [if_neg (by simpa using hnew), hstored]
  cases w with
  | done => exact absurd rfl hw
  | failed n => rfl

/-- After a write that failed, the record is known: applying it again does
nothing. -/
theorem retried_of_fails {p : TrustPolicy F} {file file' : Option ByteArray} {obj : Value F}
    {w : Write} {record : RevocationRecord F} (h : FailsOn C p obj w record) (w' : Write) :
    (p.apply C file obj w).policy.apply C file' obj w' =
      ⟨(p.apply C file obj w).policy, file', ∅, false⟩ := by
  obtain ⟨-, -, hnew, masters, hmasters, hverify⟩ := h
  obtain ⟨hrecords, -, hmasters', -⟩ := merge_new file hmasters hverify hnew (some w)
  refine merge_old (fun masters' record' hm hv => ?_) _
  have hmm : masters = masters' := Option.some.inj (hmasters.symm.trans (hmasters'.symm.trans hm))
  obtain rfl := hmm
  obtain rfl := Option.some.inj (hverify.symm.trans hv)
  rw [TrustPolicy.apply, hrecords]
  exact StrMap.mem_insert.mpr (.inl rfl)

theorem atomic_iff (p : TrustPolicy F) (file : Option ByteArray) (obj : Value F) (w : Write) :
    Atomic C p file obj w ↔ ∀ record, FailsOn C p obj w record →
      record.revoked ⊆ p.revoked ∧ Persisted (appendAs w file obj) obj := by
  constructor
  · intro h record hfails
    have hfile := file_of_fails file hfails
    obtain ⟨-, -, hnew, masters, hmasters, hverify⟩ := id hfails
    rcases h (apply_raised_iff.mpr ⟨record, hfails⟩) with hin | hretried
    · obtain ⟨masters', record', hm, hv, -, hsub, hpersisted⟩ := hin
      obtain rfl := Option.some.inj (hmasters.symm.trans hm)
      obtain rfl := Option.some.inj (hverify.symm.trans hv)
      exact ⟨hsub, hfile ▸ hpersisted⟩
    · rw [retried_of_fails hfails, apply_done_newly hmasters hverify hnew] at hretried
      obtain ⟨-, hnewly, hpersisted⟩ := hretried
      exact ⟨Finset.sdiff_eq_empty_iff_subset.mp hnewly.symm, hfile ▸ hpersisted⟩
  · intro h hraised
    obtain ⟨record, hfails⟩ := apply_raised_iff.mp hraised
    obtain ⟨hsub, hpersisted⟩ := h record hfails
    obtain ⟨-, -, hnew, masters, hmasters, hverify⟩ := id hfails
    obtain ⟨-, hrevoked, -⟩ := merge_new file hmasters hverify hnew (some w)
    refine .inl ⟨masters, record, hmasters, hverify, ?_, hsub, file_of_fails file hfails ▸ hpersisted⟩
    rw [TrustPolicy.apply, hrevoked]
    exact Finset.subset_union_right

/-! ## Any number of calls -/

/-- Merges, one after the other, each with the fate of its write (none when
the record comes from the store). -/
def mergeAll (C : Crypto) (p : TrustPolicy F) (file : Option ByteArray) :
    List (Value F × Option Write) → TrustPolicy F × Option ByteArray
  | [] => (p, file)
  | c :: calls => mergeAll C (p.merge C file c.1 c.2).policy (p.merge C file c.1 c.2).file calls

/-- The DID is revoked by a record among these calls that verifies. -/
def Revokes (C : Crypto) (masters : MasterSet) (objs : List (Value F)) (did : String) : Prop :=
  ∃ obj ∈ objs, ∃ record, verify_revocation C masters [] obj = some record ∧ did ∈ record.revoked

/-- What a policy is after these objects. -/
structure HoldsFor (C : Crypto) (masters : MasterSet) (objs : List (Value F)) (p : TrustPolicy F) :
    Prop where
  masters_eq : p.masters = some masters
  records : ∀ id, id ∈ p.records ↔
    ∃ obj ∈ objs, ∃ record, verify_revocation C masters [] obj = some record ∧ record.record_id = id
  revoked : ∀ did, did ∈ p.revoked ↔ Revokes C masters objs did

theorem holdsFor_merge {masters : MasterSet} {objs : List (Value F)} {p : TrustPolicy F}
    {file : Option ByteArray} {obj : Value F} {persist : Option Write}
    (hinj : Set.InjOn (digest C) (Bodies (objs ++ [obj]))) (hp : HoldsFor C masters objs p) :
    HoldsFor C masters (objs ++ [obj]) (p.merge C file obj persist).policy := by
  by_cases h : ∃ record, verify_revocation C masters [] obj = some record ∧
      record.record_id ∉ p.records
  · obtain ⟨record, hverify, hnew⟩ := h
    obtain ⟨hrecords, hrevoked, hmasters, -⟩ := merge_new file hp.masters_eq hverify hnew persist
    refine ⟨hmasters.trans hp.masters_eq, fun id => ?_, fun did => ?_⟩
    · rw [hrecords, StrMap.mem_insert, hp.records, or_comm]
      simp [hverify, or_and_right, exists_or]
    · rw [hrevoked, Finset.mem_union, hp.revoked]
      simp [Revokes, hverify, or_and_right, exists_or]
  · have hknown : ∀ record, verify_revocation C masters [] obj = some record →
        record.record_id ∈ p.records := fun record hverify => by
      by_contra hnew
      exact h ⟨record, hverify, hnew⟩
    rw [merge_old fun masters' record hm hv => by
      obtain rfl := Option.some.inj (hp.masters_eq.symm.trans hm)
      exact hknown record hv]
    -- a record of the same name was merged before, and it revokes the same
    have hsame : ∀ record, verify_revocation C masters [] obj = some record → ∃ obj' ∈ objs,
        ∃ record', verify_revocation C masters [] obj' = some record' ∧
          record'.record_id = record.record_id ∧ record'.revoked = record.revoked :=
      fun record hverify => by
        obtain ⟨obj', hobj', record', hverify', hid⟩ := (hp.records _).mp (hknown record hverify)
        exact ⟨obj', hobj', record', hverify', hid,
          revoked_eq_of_id hinj (List.mem_append_left _ hobj') (by simp) hverify' hverify hid⟩
    refine ⟨hp.masters_eq, fun id => ?_, fun did => ?_⟩
    · rw [hp.records]
      constructor
      · rintro ⟨obj', hobj', hrest⟩
        exact ⟨obj', List.mem_append_left _ hobj', hrest⟩
      · rintro ⟨obj', hobj', record, hverify, hid⟩
        rcases List.mem_append.mp hobj' with hold | hnew
        · exact ⟨obj', hold, record, hverify, hid⟩
        · obtain rfl := List.mem_singleton.mp hnew
          obtain ⟨obj₂, hobj₂, record₂, hverify₂, hid₂, -⟩ := hsame record hverify
          exact ⟨obj₂, hobj₂, record₂, hverify₂, hid₂.trans hid⟩
    · rw [hp.revoked]
      constructor
      · rintro ⟨obj', hobj', hrest⟩
        exact ⟨obj', List.mem_append_left _ hobj', hrest⟩
      · rintro ⟨obj', hobj', record, hverify, hdid⟩
        rcases List.mem_append.mp hobj' with hold | hnew
        · exact ⟨obj', hold, record, hverify, hdid⟩
        · obtain rfl := List.mem_singleton.mp hnew
          obtain ⟨obj₂, hobj₂, record₂, hverify₂, -, hrevoked⟩ := hsame record hverify
          exact ⟨obj₂, hobj₂, record₂, hverify₂, hrevoked ▸ hdid⟩

theorem holdsFor_mergeAll {masters : MasterSet} : ∀ {calls : List (Value F × Option Write)}
    {objs : List (Value F)} {p : TrustPolicy F} {file : Option ByteArray},
    Set.InjOn (digest C) (Bodies (objs ++ calls.map Prod.fst)) → HoldsFor C masters objs p →
      HoldsFor C masters (objs ++ calls.map Prod.fst) (mergeAll C p file calls).1 := by
  intro calls
  induction calls with
  | nil =>
      intro objs p file _ hp
      rw [List.map_nil, List.append_nil]
      exact hp
  | cons c calls ih =>
      intro objs p file hinj hp
      rw [List.map_cons, List.append_cons] at hinj ⊢
      refine ih hinj (holdsFor_merge ?_ hp)
      exact hinj.mono (bodies_mono fun obj hobj => List.mem_append_left _ hobj)

theorem holdsFor_start (masters : MasterSet) (allowlist : String → Bool) (stored : Bool) :
    HoldsFor C masters [] ({ allowlist, masters := some masters, stored } : TrustPolicy F) :=
  ⟨rfl, by simp, by simp [Revokes]⟩

end

/-! ## One revocation -/

namespace Leaver

def masters : MasterSet where
  dids := ["did:master"]
  threshold := 1
  nodup := by simp
  pos := le_rfl
  le := le_rfl

def body : Value (Option Int) := revocationBody ["did:leaver"] "left" (some 0)

def entry : Value (Option Int) := .obj [("sig", .str ""), ("signer", .str "did:master")]

/-- The revocation of one DID, signed by the one master. -/
def record : Value (Option Int) :=
  .obj [("issued_at", .float (some 0)), ("reason", .str "left"),
    ("record_id", .str (digest .lenient body)), ("revoked", strArr ["did:leaver"]),
    ("sigs", .arr [entry]), ("type", .str REVOCATION_TYPE)]

def policy : TrustPolicy (Option Int) where
  allowlist _ := true
  masters := some masters
  stored := true

theorem count_entry (message : ByteArray) :
    countSignature .lenient masters [] message [] entry = ["did:master"] := by
  simp [countSignature, entry, textField, field, Value.asObj, objGet, Value.asStr,
    MasterSet.contains, masters, Crypto.lenient]

theorem verify_record : verify_revocation .lenient masters [] record =
    some ⟨digest .lenient body, ["did:leaver"].toFinset, "left", some 0, ["did:master"]⟩ := by
  have hsigs : [entry].foldl (countSignature .lenient masters [] (canonical body)) [] =
      ["did:master"] := count_entry (canonical body)
  have h := @verify_revocation_eq (Option Int) _ .lenient masters [] record (.float (some 0))
    ["did:leaver"] "left" [entry] (some 0)
    (by simp [textField, field, record, Value.asObj, objGet, Value.asStr])
    (by simp [texts, field, record, Value.asObj, objGet, strArr, Value.asStr])
    (by simp [textField, field, record, Value.asObj, objGet, Value.asStr])
    (by simp [field, record, Value.asObj, objGet])
    (by simp [field, record, Value.asObj, objGet, Value.asArr])
    (by simp [MAX_REVOKED]) (by simp) rfl rfl rfl
    (by simp [textField, field, record, Value.asObj, objGet, Value.asStr, body])
    (by rw [← body, hsigs]; exact le_rfl)
  rw [← body, hsigs] at h
  exact h

def calls : List (Value (Option Int) × Option Write) := [(record, some .done), (record, none)]

end Leaver

end Secdogie.Identity
