/-
# `Secdogie.Citadel.Memory` — what the mesh remembers

Memory events of the journal are folded, in the journal's order, into the
records that are active.  A caution needs evidence and anything else an
operator's confirmation, of this content and on this node; a newer fact or
preference takes the place of the one with its key, and a retraction takes a
record away.

`memory_view_spec` says what is active after any list of events.
-/
import Secdogie.Citadel.Lessons
import Secdogie.Lib.MapOption
import Secdogie.Identity.Verified
import Secdogie.Lib.OrderedDict
import Secdogie.Transport.Membership

namespace Secdogie.Citadel

open Secdogie.Graph Secdogie.Identity
open Transport (Builtins)

def MEMORY_EVENT_KIND : String := "memory"
def CONFIRMATION_TYPE : String := "secdogie/memory-confirmation/v1"
def ASSERT : String := "assert"
def RETRACT : String := "retract"
def BY_EVIDENCE : String := "evidence"
def BY_OPERATOR : String := "operator"

structure MemoryRecord where
  memory_id : String
  mclass : MemoryClass
  scope : String
  key : String
  value : String
  basis : String
  evidence : List String
  /-- who signed the confirmation, if it is the operator's -/
  confirmed_by : String
  author : String
deriving DecidableEq

/-- What a newer fact takes the place of. -/
def MemoryRecord.slot (r : MemoryRecord) : MemoryClass × String × String := (r.mclass, r.scope, r.key)

/-- The active records, by id. -/
abbrev MemoryView := OrderedDict String MemoryRecord

section

variable {F : Type} [PyFloat F] (B : Builtins F) (C : Crypto) (lower : String → String)

/-- `verify_confirmation`: the signer, if it is good -/
def verify_confirmation (obj : Value F) (memory_id subject : String)
    (confirmers : Option (String → Bool)) : Option String :=
  if textField obj "type" ≠ some CONFIRMATION_TYPE then none
  else
    match confirmers with
    | none => none
    | some trusted =>
        match verifyPayload C trusted obj with
        | (true, some signer) =>
            if textField obj "memory_id" ≠ some memory_id then none
            else if textField obj "subject" ≠ some subject then none
            else some signer
        | _ => none

/-- `_admit` -/
def admit_record (body : Value F) (author : String) (confirmers : Option (String → Bool)) :
    Option MemoryRecord := do
  if textField body "op" ≠ some ASSERT then none
  else
    let basis ← field body "basis"
    let mclass ← validate lower ((field body "mclass").getD .null) ((field body "scope").getD .null)
      ((field body "key").getD .null) ((field body "value").getD .null)
    let scope ← textField body "scope"
    let key ← textField body "key"
    let value ← textField body "value"
    let mid ← textField body "memory_id"
    let evidence ← texts (some ((field body "evidence").getD (.arr [])))
    if mid ≠ candidate_id F C mclass scope key value then none
    else if basis.asStr = some BY_EVIDENCE then
      if mclass ≠ .caution ∨ evidence = [] then none
      else some ⟨mid, mclass, scope, key, value, BY_EVIDENCE, evidence, "", author⟩
    else if basis.asStr = some BY_OPERATOR then
      (verify_confirmation C ((field body "confirmation").getD .null) mid author confirmers).map
        (fun signer => ⟨mid, mclass, scope, key, value, BY_OPERATOR, evidence, signer, author⟩)
    else none

/-- What a trusted event does. -/
inductive MemoryStep where
  | assert (r : MemoryRecord)
  | retract (memory_id : String)

/-- The step of an event; none if it is passed over. -/
def stepOf (trust confirmers : Option (String → Bool)) (ev : Value F) : Option MemoryStep :=
  let author := B.str ((field ev "author").getD (.str ""))
  if trust.any (fun t => !t author) then none
  else
    match field ev "body" with
    | some (.obj m) =>
        if textField (.obj m) "op" = some RETRACT then
          some (.retract (B.str ((field (.obj m) "memory_id").getD (.str ""))))
        else (admit_record C lower (.obj m) author confirmers).map .assert
    | _ => none

/-- A newer fact for the same key replaces the old. -/
def fold_step (active : MemoryView) : MemoryStep → MemoryView
  | .retract mid => active.pop mid
  | .assert r =>
      (if r.mclass = .caution then active
        else active.filter (fun _ old => decide (old.slot ≠ r.slot))).set r.memory_id r

/-- `_order`; `none` is an `OverflowError`, what else is raised is caught. -/
def orderOf (ev : Value F) : Option (ℤ × String × ℤ) := do
  let lamport ← B.int ((field ev "lamport").getD (.int 0))
  let seq ← B.int ((field ev "seq").getD (.int 0))
  match lamport, seq with
  | some lamport, some seq => pure (lamport, B.str ((field ev "author").getD (.str "")), seq)
  | _, _ => pure (0, "", 0)

/-- Comparison of tuples. -/
def orderLe (a b : ℤ × String × ℤ) : Bool :=
  decide (a.1 < b.1 ∨ a.1 = b.1 ∧ (a.2.1 < b.2.1 ∨ a.2.1 = b.2.1 ∧ a.2.2 ≤ b.2.2))

/-- The memory events, in the journal's order. -/
def memoryEvents (events : List (Value F)) : Option (List (Value F)) := do
  let mem := events.filter (fun e => decide (textField e "kind" = some MEMORY_EVENT_KIND))
  let keyed ← mem.mapM (fun e => (orderOf B e).map (fun k => (k, e)))
  pure ((keyed.insertionSort (fun a b => orderLe a.1 b.1 = true)).map Prod.snd)

/-- `build_memory`; `none` when it raises. -/
def build_memory (trust confirmers : Option (String → Bool)) (scope : Option String)
    (events : List (Value F)) : Option MemoryView := do
  let mem ← memoryEvents B events
  let active := (mem.filterMap (stepOf B C lower trust confirmers)).foldl fold_step .empty
  pure (match scope with
    | none => active
    | some scope => active.filter (fun _ r => decide (r.scope = "global" ∨ r.scope = scope)))

end

/-! ## What is active -/

/-- What takes the record out of the view again. -/
def removes : MemoryStep → MemoryRecord → Prop
  | .retract mid, r => r.memory_id = mid
  | .assert new, r => r.memory_id = new.memory_id ∨ (new.mclass ≠ .caution ∧ r.slot = new.slot)

/-- The record was asserted, and nothing after that took it out. -/
def Standing (steps : List MemoryStep) (r : MemoryRecord) : Prop :=
  ∃ pre post, steps = pre ++ .assert r :: post ∧ ∀ s ∈ post, ¬ removes s r

theorem not_standing_nil (r : MemoryRecord) : ¬ Standing [] r := by
  rintro ⟨pre, post, heq, -⟩
  exact List.append_ne_nil_of_right_ne_nil pre (List.cons_ne_nil _ _) heq.symm

/-- One more step asserts the record, or leaves it standing. -/
theorem standing_concat {steps : List MemoryStep} {s : MemoryStep} {r : MemoryRecord} :
    Standing (steps ++ [s]) r ↔ s = .assert r ∨ (Standing steps r ∧ ¬ removes s r) := by
  constructor
  · rintro ⟨pre, post, heq, hpost⟩
    rcases List.eq_nil_or_concat post with rfl | ⟨post', s', rfl⟩
    · exact Or.inl (List.append_inj_right' heq rfl |> List.singleton_inj.mp)
    · rw [List.concat_eq_append] at heq hpost
      have heq' : steps ++ [s] = (pre ++ .assert r :: post') ++ [s'] := by
        rw [heq, List.append_assoc, List.cons_append]
      obtain ⟨hsteps, hs⟩ := List.append_inj' heq' rfl
      obtain rfl := List.singleton_inj.mp hs
      exact Or.inr ⟨⟨pre, post', hsteps, fun t ht => hpost t (List.mem_append_left _ ht)⟩,
        hpost s (List.mem_append_right _ (List.mem_singleton_self s))⟩
  · rintro (rfl | ⟨⟨pre, post, rfl, hpost⟩, hs⟩)
    · exact ⟨steps, [], rfl, fun t ht => absurd ht List.not_mem_nil⟩
    · refine ⟨pre, post ++ [s], by rw [List.append_assoc, List.cons_append], fun t ht => ?_⟩
      rcases List.mem_append.mp ht with ht | ht
      · exact hpost t ht
      · exact List.mem_singleton.mp ht ▸ hs

/-- After a step the asserted record is active, and what was active and is not taken out. -/
theorem get_fold_step {active : MemoryView} (hids : ∀ m r, active.get m = some r → r.memory_id = m)
    (s : MemoryStep) (m : String) (r : MemoryRecord) :
    (fold_step active s).get m = some r ↔
      r.memory_id = m ∧ (s = .assert r ∨ (active.get m = some r ∧ ¬ removes s r)) := by
  cases s with
  | retract mid =>
      rw [fold_step, OrderedDict.get_pop]
      constructor
      · intro h
        split_ifs at h with hm
        have hid := hids m r h
        exact ⟨hid, Or.inr ⟨h, fun hr => hm (hid.symm.trans hr)⟩⟩
      · rintro ⟨hid, h | ⟨h, hr⟩⟩
        · cases h
        · rw [if_neg fun hm => hr (hid.trans hm)]
          exact h
  | assert new =>
      have hold : ∀ old : MemoryRecord, old.memory_id = m → m ≠ new.memory_id →
          ((if new.mclass = .caution then active
            else active.filter (fun _ old => decide (old.slot ≠ new.slot))).get m = some old ↔
              active.get m = some old ∧ ¬ removes (.assert new) old) := by
        intro old hid hm
        have hne : old.memory_id ≠ new.memory_id := fun h => hm (hid.symm.trans h)
        split_ifs with hc
        · simp [removes, hne, hc]
        · rw [OrderedDict.get_filter_eq_some_iff, decide_eq_true_iff]
          simp [removes, hne, hc]
      rw [fold_step, OrderedDict.get_set]
      by_cases hm : m = new.memory_id
      · rw [if_pos hm]
        constructor
        · intro h
          obtain rfl := Option.some.inj h
          exact ⟨hm.symm, Or.inl rfl⟩
        · rintro ⟨hid, h | ⟨-, hr⟩⟩
          · rw [MemoryStep.assert.inj h]
          · exact absurd (Or.inl (hid.trans hm)) hr
      · rw [if_neg hm]
        constructor
        · intro h
          have hid : r.memory_id = m := by
            split_ifs at h with hc
            · exact hids m r h
            · exact hids m r (OrderedDict.get_filter_eq_some_iff.mp h).1
          exact ⟨hid, Or.inr ((hold r hid hm).mp h)⟩
        · rintro ⟨hid, h | h⟩
          · exact absurd (hid.symm.trans (congrArg MemoryRecord.memory_id (MemoryStep.assert.inj h).symm)) hm
          · exact (hold r hid hm).mpr h

/-- What is active after the steps is what stands after them. -/
theorem get_foldl_fold_step (steps : List MemoryStep) (m : String) (r : MemoryRecord) :
    (steps.foldl fold_step .empty).get m = some r ↔ r.memory_id = m ∧ Standing steps r := by
  induction steps using List.reverseRecOn generalizing m r with
  | nil =>
      rw [List.foldl_nil, OrderedDict.get_empty]
      exact ⟨fun h => (nomatch h), fun h => absurd h.2 (not_standing_nil r)⟩
  | append_singleton steps s ih =>
      rw [List.foldl_concat, get_fold_step (fun m r h => ((ih m r).mp h).1), standing_concat, ih]
      tauto

/-- Of one key the later fact or preference took the place of the earlier. -/
theorem standing_unique {steps : List MemoryStep} {r r' : MemoryRecord} (hr : Standing steps r)
    (hr' : Standing steps r') (hc : r.mclass ≠ .caution) (hslot : r.slot = r'.slot) : r = r' := by
  induction steps using List.reverseRecOn with
  | nil => exact absurd hr (not_standing_nil r)
  | append_singleton steps s ih =>
      have hc' : r'.mclass ≠ .caution := by
        have hclass : r.mclass = r'.mclass := congrArg Prod.fst hslot
        exact hclass ▸ hc
      rcases standing_concat.mp hr with rfl | ⟨hr, hs⟩
      · rcases standing_concat.mp hr' with h | ⟨-, hs'⟩
        · exact MemoryStep.assert.inj h
        · exact absurd (Or.inr ⟨hc, hslot.symm⟩) hs'
      · rcases standing_concat.mp hr' with rfl | ⟨hr', -⟩
        · exact absurd (Or.inr ⟨hc', hslot⟩) hs
        · exact ih hr hr'

/-! ## What backs a record -/

section

variable {F : Type} [PyFloat F] {B : Builtins F} {C : Crypto} {lower : String → String}
  {trust confirmers : Option (String → Bool)}

/-- A trusted confirmer signed for this content on this node. -/
def Confirmed (F : Type) [PyFloat F] (C : Crypto) (confirmers : Option (String → Bool))
    (r : MemoryRecord) : Prop :=
  ∃ trusted, confirmers = some trusted ∧ trusted r.confirmed_by = true ∧ ∃ obj : Value F,
    verifyPayload C trusted obj = (true, some r.confirmed_by) ∧
    textField obj "type" = some CONFIRMATION_TYPE ∧
    textField obj "memory_id" = some r.memory_id ∧ textField obj "subject" = some r.author

/-- What the record says is admissible, is what its id says, and is backed as its class needs. -/
structure Backed (F : Type) [PyFloat F] (C : Crypto) (lower : String → String)
    (confirmers : Option (String → Bool)) (r : MemoryRecord) : Prop where
  admissible : admissible lower r.scope r.key r.value = true
  id : r.memory_id = candidate_id F C r.mclass r.scope r.key r.value
  confirmed : r.mclass ≠ .caution → r.basis = BY_OPERATOR ∧ Confirmed F C confirmers r
  evident : r.mclass = .caution → r.evidence ≠ [] ∨ r.basis = BY_OPERATOR ∧ Confirmed F C confirmers r

theorem verify_confirmation_eq_some {obj : Value F} {mid subject signer : String}
    (h : verify_confirmation C obj mid subject confirmers = some signer) :
    ∃ trusted, confirmers = some trusted ∧ verifyPayload C trusted obj = (true, some signer) ∧
      textField obj "type" = some CONFIRMATION_TYPE ∧ textField obj "memory_id" = some mid ∧
      textField obj "subject" = some subject := by
  unfold verify_confirmation at h
  split at h
  · exact nomatch h
  next htype =>
  split at h
  · exact nomatch h
  next trusted =>
  split at h
  · next signer' hsig =>
      split at h
      · exact nomatch h
      next hmid =>
      split at h
      · exact nomatch h
      next hsubject =>
      obtain rfl := Option.some.inj h
      exact ⟨trusted, rfl, hsig, not_not.mp htype, not_not.mp hmid, not_not.mp hsubject⟩
  · exact nomatch h

omit [PyFloat F] in
theorem validate_eq_some {mclass scope key value : Value F} {c : MemoryClass}
    (h : validate lower mclass scope key value = some c) :
    ∃ s k v, scope.asStr = some s ∧ key.asStr = some k ∧ value.asStr = some v ∧
      admissible lower s k v = true := by
  simp only [validate, Option.bind_eq_bind, Option.bind_eq_some_iff] at h
  obtain ⟨c', hc', s, hs, k, hk, v, hv, h⟩ := h
  split at h
  · next ha => exact ⟨s, k, v, hs, hk, hv, ha⟩
  · exact nomatch h

/-- What is admitted is backed, on the word of the author it names. -/
theorem admit_record_eq_some {body : Value F} {author : String} {r : MemoryRecord}
    (h : admit_record C lower body author confirmers = some r) :
    r.author = author ∧ Backed F C lower confirmers r := by
  unfold admit_record at h
  split_ifs at h with hop
  simp only [Option.bind_eq_bind, Option.bind_eq_some_iff] at h
  obtain ⟨basis, -, mclass, hvalid, scope, hscope, key, hkey, value, hvalue, mid, -, evidence, -, h⟩ := h
  obtain ⟨s, k, v, hs, hk, hv, ha⟩ := validate_eq_some hvalid
  have hread : ∀ {name t t' : String}, textField body name = some t →
      ((field body name).getD .null).asStr = some t' → t' = t := by
    intro name t t' ht ht'
    unfold textField at ht
    cases hf : field body name with
    | none => rw [hf] at ht; exact nomatch ht
    | some x =>
        rw [hf] at ht ht'
        exact Option.some.inj (ht'.symm.trans ht)
  obtain rfl := hread hscope hs
  obtain rfl := hread hkey hk
  obtain rfl := hread hvalue hv
  split_ifs at h with hmid hevidence hmust hoperator
  · obtain rfl := Option.some.inj h
    rw [not_or, not_not] at hmust
    exact ⟨rfl, ha, not_not.mp hmid, fun hc => absurd hmust.1 hc, fun _ => Or.inl hmust.2⟩
  · rw [Option.map_eq_some_iff] at h
    obtain ⟨signer, hsigner, rfl⟩ := h
    obtain ⟨trusted, htrusted, hsig, htype, hid, hsubject⟩ := verify_confirmation_eq_some hsigner
    have hconfirmed : Confirmed F C confirmers
        ⟨mid, mclass, s, k, v, BY_OPERATOR, evidence, signer, author⟩ :=
      ⟨trusted, htrusted, trusted_of_verifyPayload hsig, _, hsig, htype, hid, hsubject⟩
    exact ⟨rfl, ha, not_not.mp hmid, fun _ => ⟨rfl, hconfirmed⟩, fun _ => Or.inr ⟨rfl, hconfirmed⟩⟩

/-- A record is asserted by a trusted author's event, on that author's word. -/
theorem stepOf_eq_assert {ev : Value F} {r : MemoryRecord}
    (h : stepOf B C lower trust confirmers ev = some (.assert r)) :
    r.author = B.str ((field ev "author").getD (.str "")) ∧
      (∀ t, trust = some t → t r.author = true) ∧ Backed F C lower confirmers r := by
  unfold stepOf at h
  dsimp only at h
  split_ifs at h with htrust
  split at h
  · next m _ =>
      split_ifs at h with hop
      · exact nomatch h
      · rw [Option.map_eq_some_iff] at h
        obtain ⟨r', hr', heq⟩ := h
        obtain rfl := MemoryStep.assert.inj heq
        obtain ⟨hauthor, hbacked⟩ := admit_record_eq_some hr'
        refine ⟨hauthor, fun t ht => ?_, hbacked⟩
        rw [hauthor]
        subst ht
        simpa using htrust
  · exact nomatch h

/-! ## The journal's order -/

theorem orderLe_iff {a b : ℤ × String × ℤ} :
    orderLe a b = true ↔ toLex (a.1, toLex (a.2.1, a.2.2)) ≤ toLex (b.1, toLex (b.2.1, b.2.2)) := by
  rw [orderLe, decide_eq_true_iff, Prod.Lex.toLex_le_toLex, Prod.Lex.toLex_le_toLex]

omit [PyFloat F] in
/-- The memory events, each once, by their order. -/
theorem memoryEvents_eq_some {events evs : List (Value F)} (h : memoryEvents B events = some evs) :
    evs.Perm (events.filter (fun e => decide (textField e "kind" = some MEMORY_EVENT_KIND))) ∧
      evs.Pairwise (fun e e' => ∃ k k', orderOf B e = some k ∧ orderOf B e' = some k' ∧
        orderLe k k' = true) := by
  rw [memoryEvents] at h
  simp only [Option.bind_eq_bind, Option.bind_eq_some_iff] at h
  obtain ⟨keyed, hkeyed, heq⟩ := h
  obtain rfl := Option.some.inj heq
  obtain ⟨hmap, hkeys⟩ := mapM_keyed hkeyed
  have hperm := List.perm_insertionSort
    (fun a b : (ℤ × String × ℤ) × Value F => orderLe a.1 b.1 = true) keyed
  refine ⟨hmap ▸ hperm.map Prod.snd, ?_⟩
  rw [List.pairwise_map]
  have hsorted : (keyed.insertionSort
      (fun a b : (ℤ × String × ℤ) × Value F => orderLe a.1 b.1 = true)).Pairwise
        (fun a b => orderLe a.1 b.1 = true) := by
    have : Std.Total (fun a b : (ℤ × String × ℤ) × Value F => orderLe a.1 b.1 = true) :=
      ⟨fun a b => by rw [orderLe_iff, orderLe_iff]; exact le_total _ _⟩
    have : IsTrans _ (fun a b : (ℤ × String × ℤ) × Value F => orderLe a.1 b.1 = true) :=
      ⟨fun a b c => by rw [orderLe_iff, orderLe_iff, orderLe_iff]; exact le_trans⟩
    exact List.pairwise_insertionSort _ _
  exact hsorted.imp_of_mem fun ha hb hab =>
    ⟨_, _, hkeys _ (hperm.mem_iff.mp ha), hkeys _ (hperm.mem_iff.mp hb), hab⟩

/-! ## The view -/

/-- What the view keeps of the active records. -/
def InScope (scope : Option String) (r : MemoryRecord) : Prop :=
  ∀ s, scope = some s → r.scope = "global" ∨ r.scope = s

/-- What the events leave: of the memory events in their order, a record is active when it was
admitted and nothing after that took it out.  It is backed as its class needs, a trusted author
asserted it, and no other fact or preference has its key. -/
theorem memory_view_spec (B : Builtins F) (C : Crypto) (lower : String → String)
    (trust confirmers : Option (String → Bool)) (scope : Option String) (events : List (Value F))
    (view : MemoryView) (h : build_memory B C lower trust confirmers scope events = some view) :
    ∃ evs, memoryEvents B events = some evs ∧
      evs.Perm (events.filter (fun e => decide (textField e "kind" = some MEMORY_EVENT_KIND))) ∧
      evs.Pairwise (fun e e' => ∃ k k', orderOf B e = some k ∧ orderOf B e' = some k' ∧
        orderLe k k' = true) ∧
      (∀ m r, view.get m = some r ↔ r.memory_id = m ∧ InScope scope r ∧
        Standing (evs.filterMap (stepOf B C lower trust confirmers)) r) ∧
      (∀ m r, view.get m = some r → Backed F C lower confirmers r ∧
        ∃ ev ∈ events, stepOf B C lower trust confirmers ev = some (.assert r) ∧
          r.author = B.str ((field ev "author").getD (.str "")) ∧
          ∀ t, trust = some t → t r.author = true) ∧
      (∀ m m' r r', view.get m = some r → view.get m' = some r' → r.mclass ≠ .caution →
        r.slot = r'.slot → r = r') := by
  rw [build_memory] at h
  simp only [Option.bind_eq_bind, Option.bind_eq_some_iff] at h
  obtain ⟨evs, hevs, heq⟩ := h
  obtain ⟨hperm, hsorted⟩ := memoryEvents_eq_some hevs
  have hget : ∀ m r, view.get m = some r ↔ r.memory_id = m ∧ InScope scope r ∧
      Standing (evs.filterMap (stepOf B C lower trust confirmers)) r := by
    intro m r
    obtain rfl := Option.some.inj heq
    cases scope with
    | none =>
        dsimp only
        rw [get_foldl_fold_step]
        exact and_congr_right fun _ => (and_iff_right fun s hs => nomatch hs).symm
    | some scope =>
        dsimp only
        rw [OrderedDict.get_filter_eq_some_iff, get_foldl_fold_step, decide_eq_true_iff, and_assoc,
          and_comm (a := Standing _ r)]
        refine and_congr_right fun _ => and_congr_left fun _ => ?_
        exact ⟨fun hr s hs => Option.some.inj hs ▸ hr, fun hr => hr scope rfl⟩
  refine ⟨evs, hevs, hperm, hsorted, hget, fun m r hr => ?_, fun m m' r r' hr hr' hc hslot => ?_⟩
  · obtain ⟨-, -, pre, post, hsteps, -⟩ := (hget m r).mp hr
    have hmem : MemoryStep.assert r ∈ evs.filterMap (stepOf B C lower trust confirmers) := by
      rw [hsteps]
      exact List.mem_append_right _ List.mem_cons_self
    obtain ⟨ev, hev, hstep⟩ := List.mem_filterMap.mp hmem
    obtain ⟨hauthor, htrusted, hbacked⟩ := stepOf_eq_assert hstep
    exact ⟨hbacked, ev, List.mem_of_mem_filter (hperm.mem_iff.mp hev), hstep, hauthor, htrusted⟩
  · exact standing_unique ((hget m r).mp hr).2.2 ((hget m' r').mp hr').2.2 hc hslot

end

namespace Remembered

/-- An app that confirms whatever it is asked about, on a node without evidence. -/
def builtins : Builtins (Option Int) where
  str v := v.asStr.getD ""
  int
    | .int n => some (some n)
    | _ => some none

def zeros : String := digest .lenient (.null : Value (Option Int))

def confirmation : Value (Option Int) := .obj [("memory_id", .str zeros), ("sig", .str ""),
  ("signer", .str "did:app"), ("subject", .str "did:node"), ("type", .str CONFIRMATION_TYPE)]

def event (body : List (String × Value (Option Int))) : Value (Option Int) :=
  .obj [("author", .str "did:node"), ("body", .obj body), ("kind", .str MEMORY_EVENT_KIND)]

def asserted (mclass : MemoryClass) : Value (Option Int) := event [("basis", .str BY_OPERATOR),
  ("confirmation", confirmation), ("key", .str "k"), ("mclass", .str mclass.value),
  ("memory_id", .str zeros), ("op", .str ASSERT), ("scope", .str "global"), ("value", .str "v")]

def retracted : Value (Option Int) := event [("memory_id", .str zeros), ("op", .str RETRACT)]

def record (mclass : MemoryClass) : MemoryRecord :=
  ⟨zeros, mclass, "global", "k", "v", BY_OPERATOR, [], "did:app", "did:node"⟩

def viewOf (events : List (Value (Option Int))) : Option MemoryView :=
  build_memory builtins .lenient id none (some fun _ => true) none events

theorem build_one (mclass : MemoryClass) : viewOf [asserted mclass] =
    some (OrderedDict.empty.set zeros (record mclass)) := by
  cases mclass <;> rfl

/-- A caution with the app's word and no evidence is active, and the last value confirmed for
a key is not, once it is retracted. -/
theorem word_without_evidence :
    (∃ view, viewOf [asserted .caution] = some view ∧ view.get zeros = some (record .caution) ∧
      (record .caution).evidence = []) ∧
    (∃ view, viewOf [asserted .fact] = some view ∧ view.get zeros = some (record .fact)) ∧
    ∃ view, viewOf [asserted .fact, retracted] = some view ∧ view.values = [] :=
  ⟨⟨_, build_one .caution, rfl, rfl⟩, ⟨_, build_one .fact, rfl⟩, _, rfl, rfl⟩

theorem memory_view_spec_fact : ∃ view, viewOf [asserted .fact] = some view ∧
    Backed (Option Int) .lenient id (some fun _ => true) (record .fact) := by
  obtain ⟨-, -, -, -, -, hbacked, -⟩ := memory_view_spec builtins .lenient id none
    (some fun _ => true) none [asserted .fact] _ (build_one .fact)
  exact ⟨_, build_one .fact, (hbacked zeros (record .fact) rfl).1⟩

end Remembered

end Secdogie.Citadel
