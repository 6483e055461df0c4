/-
# `Secdogie.Symbiont.ProposalQueue` — proposals that wait for the person

Proposals are held until the budget has a free slot, then surfaced a few at a
time, and end resolved, expired or withdrawn.  A tick does three things to the
items: what is due expires, what is surfaced is veiled or not as the mode is,
and the first in order take the free slots.  `get_tick` says that of one proposal,
and `Disciplined.taken_before` which ones are taken.
-/
import Secdogie.Lib.Along
import Secdogie.Lib.OrderedDict
import Secdogie.Symbiont.Budget

namespace Secdogie.Symbiont

inductive ProposalKind where
  | gate1 | gate2
deriving DecidableEq

inductive ProposalState where
  | queued | surfaced | resolved | expired | withdrawn
deriving DecidableEq

inductive ProposalResolution where
  | approved | denied | answered | dismissed
deriving DecidableEq

structure Proposal (P : Type) where
  id : String
  kind : ProposalKind
  payload : P
  summary : String
  createdAt : ℚ
  /-- `none` for no deadline -/
  expiresAt : Option ℚ
  state : ProposalState
  resolution : Option ProposalResolution
  surfacedAt : Option ℚ
  veiled : Bool

structure QueueEvents (P : Type) where
  surfaced : List (Proposal P)
  expired : List (Proposal P)
  veiled : List (Proposal P)
  unveiled : List (Proposal P)

def NEXT : ProposalState → List ProposalState
  | .queued => [.surfaced, .expired, .withdrawn]
  | .surfaced => [.resolved, .expired, .withdrawn]
  | .resolved => []
  | .expired => []
  | .withdrawn => []

abbrev Items (P : Type) := OrderedDict String (Proposal P)

structure ProposalQueue (P : Type) where
  maxSurfaced : ℚ := 3
  items : Items P := .empty
  seq : ℕ := 0
  order : OrderedDict String ℕ := .empty

variable {P : Type}

/-- `#move`; `none` for an illegal transition. -/
def move (items : Items P) (id : String) (target : ProposalState) (patch : Proposal P → Proposal P) :
    Option (Items P) :=
  match items.get id with
  | none => none
  | some p =>
      if target ∈ NEXT p.state then some (items.set id { patch p with state := target }) else none

/-- `#items.set`, for each of some proposals. -/
def overwrite (items : Items P) (ps : List (Proposal P)) : Items P :=
  ps.foldl (fun items p => items.set p.id p) items

/-- The proposals in a state. -/
def inState (items : Items P) (state : ProposalState) : List (Proposal P) :=
  items.values.filter fun p => p.state = state

def Proposal.pending (p : Proposal P) : Prop := p.state = .queued ∨ p.state = .surfaced

instance (p : Proposal P) : Decidable p.pending := inferInstanceAs (Decidable (_ ∨ _))

/-- The deadline is set, and past. -/
def Proposal.due (now : ℚ) (p : Proposal P) : Prop := ∃ at_ ∈ p.expiresAt, at_ ≤ now

instance (now : ℚ) (p : Proposal P) : Decidable (p.due now) :=
  match h : p.expiresAt with
  | none => isFalse fun ⟨_, hat, _⟩ => nomatch h.symm.trans hat
  | some at_ =>
      if hle : at_ ≤ now then isTrue ⟨at_, h, hle⟩
      else isFalse fun ⟨_, hat, hle'⟩ => hle (Option.some.inj (h.symm.trans hat) ▸ hle')

/-- `expiresAt ?? Infinity` -/
def Proposal.deadline (p : Proposal P) : WithTop ℚ :=
  match p.expiresAt with
  | none => ⊤
  | some at_ => at_

def Proposal.expire (p : Proposal P) : Proposal P := { p with state := .expired }

def Proposal.veil (suppressed : Bool) (p : Proposal P) : Proposal P :=
  { p with veiled := suppressed }

def Proposal.surface (now : ℚ) (p : Proposal P) : Proposal P :=
  { p with surfacedAt := some now, state := .surfaced }

namespace ProposalQueue

/-- What the waiting proposals are sorted by. -/
def rank (q : ProposalQueue P) (p : Proposal P) : WithTop ℚ ×ₗ ℕ :=
  toLex (p.deadline, (q.order.get p.id).getD 0)

structure NewProposal (P : Type) where
  id : String
  kind : ProposalKind
  payload : P
  summary : String
  expiresAt : Option ℚ

/-- `enqueue`; `none` if it throws. -/
def enqueue (q : ProposalQueue P) (p : NewProposal P) (now : ℚ) : Option (ProposalQueue P) :=
  match q.items.get p.id with
  | some _ => none
  | none =>
      some { q with
        items := q.items.set p.id
          { id := p.id, kind := p.kind, payload := p.payload, summary := p.summary,
            createdAt := now, expiresAt := p.expiresAt, state := .queued, resolution := none,
            surfacedAt := none, veiled := false }
        order := q.order.set p.id q.seq
        seq := q.seq + 1 }

/-- What expires first. -/
def expiredBy (items : Items P) (now : ℚ) : List (Proposal P) :=
  (items.values.filter fun p => p.pending ∧ p.due now).map .expire

/-- What is veiled, or unveiled, next. -/
def veiledBy (items : Items P) (suppressed : Bool) : List (Proposal P) :=
  ((inState items .surfaced).filter fun p => p.veiled ≠ suppressed).map (.veil suppressed)

/-- What is then surfaced, as it was. -/
def takenBy (q : ProposalQueue P) (items : Items P) (budget : InterruptionBudget) :
    List (Proposal P) :=
  let free := min budget.slots (q.maxSurfaced - (inState items .surfaced).length)
  if budget.mode ≠ .suppressed ∧ 0 < free then
    let waiting := (inState items .queued).insertionSort fun a b => q.rank a ≤ q.rank b
    waiting.take ⌊free⌋.toNat
  else []

/-- `tick`: expire, veil or unveil, then surface into the free slots. -/
def tick (q : ProposalQueue P) (budget : InterruptionBudget) (now : ℚ) :
    ProposalQueue P × QueueEvents P :=
  let suppressed := decide (budget.mode = .suppressed)
  let expired := expiredBy q.items now
  let items := overwrite q.items expired
  let changed := veiledBy items suppressed
  let items := overwrite items changed
  let surfaced := (q.takenBy items budget).map (.surface now)
  ({ q with items := overwrite items surfaced },
    { surfaced, expired, veiled := if suppressed then changed else [],
      unveiled := if suppressed then [] else changed })

/-- `resolve`; `none` if it throws. -/
def resolve (q : ProposalQueue P) (id : String) (resolution : ProposalResolution) :
    Option (ProposalQueue P) :=
  (move q.items id .resolved fun p => { p with resolution := some resolution }).map
    fun items => { q with items }

/-- `withdraw`; `none` if it throws. -/
def withdraw (q : ProposalQueue P) (id : String) : Option (ProposalQueue P) :=
  (move q.items id .withdrawn fun p => p).map fun items => { q with items }

end ProposalQueue

/-! ## Items under their ids -/

/-- Each proposal is held under its id. -/
def Held (items : Items P) : Prop := ∀ k p, items.get k = some p → p.id = k

variable {items : Items P} {k : String} {p : Proposal P} {ps : List (Proposal P)}

theorem get_overwrite : ∀ {ps : List (Proposal P)} {items : Items P},
    (ps.map Proposal.id).Nodup →
    (overwrite items ps).get k = (ps.find? fun p => p.id = k).or (items.get k)
  | [], _, _ => rfl
  | p :: ps, items, hnodup => by
      obtain ⟨hnew, hnodup⟩ := List.nodup_cons.mp hnodup
      have ih := @get_overwrite ps (items.set p.id p) hnodup
      rw [overwrite, List.foldl_cons]
      rw [overwrite] at ih
      rw [ih, List.find?_cons, OrderedDict.get_set]
      by_cases hk : p.id = k
      · have hnone : ps.find? (fun p => p.id = k) = none := by
          rw [List.find?_eq_none]
          intro r hr heq
          exact hnew (hk ▸ of_decide_eq_true heq ▸ List.mem_map_of_mem hr)
        rw [hnone, decide_eq_true hk, if_pos hk.symm]
        rfl
      · rw [decide_eq_false hk, if_neg (Ne.symm hk)]

theorem Held.set (h : Held items) (p : Proposal P) : Held (items.set p.id p) := by
  intro k r hr
  rw [OrderedDict.get_set] at hr
  split_ifs at hr with hk
  · exact hk ▸ Option.some.inj hr ▸ rfl
  · exact h k r hr

theorem Held.overwrite : ∀ {ps : List (Proposal P)} {items : Items P}, Held items →
    Held (overwrite items ps)
  | [], _, h => h
  | p :: ps, items, h => @Held.overwrite ps (items.set p.id p) (h.set p)

theorem keys_overwrite : ∀ {ps : List (Proposal P)} {items : Items P},
    (∀ p ∈ ps, p.id ∈ items.keys) → (overwrite items ps).keys = items.keys
  | [], _, _ => rfl
  | p :: ps, items, h => by
      have hkeys : (items.set p.id p).keys = items.keys := by
        rw [OrderedDict.keys_set, if_pos (h p List.mem_cons_self)]
      have hps : ∀ r ∈ ps, r.id ∈ (items.set p.id p).keys := by
        intro r hr
        rw [hkeys]
        exact h r (List.mem_cons_of_mem p hr)
      exact (keys_overwrite hps).trans hkeys

/-- Some of the proposals, each once. -/
structure Picked (items : Items P) (ps : List (Proposal P)) : Prop where
  nodup : (ps.map Proposal.id).Nodup
  held : ∀ p ∈ ps, items.get p.id = some p

theorem Held.values (h : Held items) : Picked items items.values := by
  have hids : items.values.map Proposal.id = items.keys := by
    rw [OrderedDict.values, OrderedDict.keys, List.map_map]
    refine List.map_congr_left fun e he => ?_
    exact h e.1 e.2 (OrderedDict.get_eq_some_iff.mpr he)
  refine ⟨hids ▸ items.nodup_keys, fun p hp => ?_⟩
  obtain ⟨k, hk⟩ := OrderedDict.mem_values.mp hp
  rw [h k p hk]
  exact hk

theorem Picked.filter (h : Picked items ps) (keep : Proposal P → Bool) :
    Picked items (ps.filter keep) :=
  ⟨h.nodup.sublist (List.filter_sublist.map _), fun p hp => h.held p (List.mem_filter.mp hp).1⟩

theorem Picked.perm {ps' : List (Proposal P)} (h : Picked items ps) (hperm : ps'.Perm ps) :
    Picked items ps' :=
  ⟨(hperm.map _).nodup_iff.mpr h.nodup, fun p hp => h.held p (hperm.mem_iff.mp hp)⟩

theorem Picked.take (h : Picked items ps) (n : ℕ) : Picked items (ps.take n) :=
  ⟨h.nodup.sublist ((List.take_sublist n ps).map _), fun p hp => h.held p (List.mem_of_mem_take hp)⟩

/-- Writing back some of the proposals, changed, changes these and no others. -/
theorem Picked.get_overwrite (h : Picked items ps) {patch : Proposal P → Proposal P}
    (hpatch : ∀ p, (patch p).id = p.id) :
    (overwrite items (ps.map patch)).get k =
      (items.get k).map fun p => if k ∈ ps.map Proposal.id then patch p else p := by
  have hids : (ps.map patch).map Proposal.id = ps.map Proposal.id := by
    rw [List.map_map]
    exact List.map_congr_left fun p _ => hpatch p
  rw [Symbiont.get_overwrite (hids ▸ h.nodup)]
  by_cases hk : k ∈ ps.map Proposal.id
  · obtain ⟨p, hp, rfl⟩ := List.mem_map.mp hk
    have hfind : (ps.map patch).find? (fun r => r.id = p.id) = some (patch p) := by
      cases hfind : (ps.map patch).find? (fun r => r.id = p.id) with
      | none =>
          have hno := List.find?_eq_none.mp hfind (patch p) (List.mem_map_of_mem hp)
          exact absurd (decide_eq_true (hpatch p)) hno
      | some r =>
          obtain ⟨s, hs, rfl⟩ := List.mem_map.mp (List.mem_of_find?_eq_some hfind)
          have hfound := List.find?_some hfind
          have hid : s.id = p.id := hpatch s ▸ of_decide_eq_true hfound
          have hsp := h.held s hs
          rw [hid, h.held p hp] at hsp
          rw [Option.some.inj hsp]
    rw [hfind, h.held p hp, Option.map_some, if_pos hk]
    rfl
  · have hnone : (ps.map patch).find? (fun r => r.id = k) = none := by
      rw [List.find?_eq_none]
      intro r hr heq
      exact hk (hids ▸ of_decide_eq_true heq ▸ List.mem_map_of_mem hr)
    rw [hnone, Option.none_or]
    simp only [hk, if_false, Option.map_id']

theorem Picked.keys_overwrite (h : Picked items ps) {patch : Proposal P → Proposal P}
    (hpatch : ∀ p, (patch p).id = p.id) : (overwrite items (ps.map patch)).keys = items.keys := by
  refine Symbiont.keys_overwrite fun r hr => ?_
  obtain ⟨p, hp, rfl⟩ := List.mem_map.mp hr
  rw [hpatch]
  exact OrderedDict.mem_keys.mpr ⟨p, h.held p hp⟩

/-- Writing back those that meet a test, changed. -/
theorem Held.get_overwrite_filter (h : Held items) {patch : Proposal P → Proposal P}
    (hpatch : ∀ p, (patch p).id = p.id) (test : Proposal P → Bool) :
    (Symbiont.overwrite items ((items.values.filter test).map patch)).get k =
      (items.get k).map fun p => if test p then patch p else p := by
  have hpicked := h.values.filter test
  rw [hpicked.get_overwrite hpatch]
  cases hk : items.get k with
  | none => rfl
  | some p =>
      rw [Option.map_some, Option.map_some]
      have hiff : k ∈ (items.values.filter test).map Proposal.id ↔ test p = true := by
        rw [List.mem_map]
        constructor
        · rintro ⟨r, hr, rfl⟩
          have hrp := (hpicked.held r hr).symm.trans hk
          exact Option.some.inj hrp ▸ (List.mem_filter.mp hr).2
        · intro htest
          have hmem : p ∈ items.values := OrderedDict.mem_values.mpr ⟨k, hk⟩
          exact ⟨p, List.mem_filter.mpr ⟨hmem, htest⟩, h k p hk⟩
      simp only [hiff]

/-! ## How many are in a state -/

/-- The keys count the proposals in a state. -/
theorem length_inState {state : ProposalState} : (inState items state).length =
    items.keys.countP fun k => (items.get k).map Proposal.state = some state := by
  rw [inState, OrderedDict.values, OrderedDict.keys, ← List.countP_eq_length_filter,
    List.countP_map, List.countP_map]
  refine List.countP_congr fun e he => ?_
  have hget := (OrderedDict.get_eq_some_iff (d := items)).mpr (show (e.1, e.2) ∈ items.items from he)
  simp [hget]

/-- With the same keys and no new proposal in a state, there are no more in it. -/
theorem length_inState_le {items' : Items P} {state : ProposalState} (hkeys : items'.keys = items.keys)
    (h : ∀ k p', items'.get k = some p' → p'.state = state →
      ∃ p, items.get k = some p ∧ p.state = state) :
    (inState items' state).length ≤ (inState items state).length := by
  rw [length_inState, length_inState, hkeys]
  refine List.countP_mono_left fun k _ hk => ?_
  obtain ⟨p', hp', hstate⟩ := Option.map_eq_some_iff.mp (of_decide_eq_true hk)
  obtain ⟨p, hp, hstate⟩ := h k p' hp' hstate
  exact decide_eq_true (by rw [hp, Option.map_some, hstate])

/-- Those of a list without duplicates that are in another are no more than it has. -/
theorem countP_mem_le {α : Type*} [DecidableEq α] {l l' : List α} (h : l.Nodup) :
    l.countP (fun a => a ∈ l') ≤ l'.length := by
  rw [List.countP_eq_length_filter]
  refine ((h.filter _).subperm fun a ha => ?_).length_le
  exact of_decide_eq_true (List.mem_filter.mp ha).2

/-- With the same keys, the new ones in a state are counted by their keys. -/
theorem length_inState_add {items' : Items P} {state : ProposalState} {ids : List String}
    (hkeys : items'.keys = items.keys)
    (h : ∀ k p', items'.get k = some p' → p'.state = state →
      k ∈ ids ∨ ∃ p, items.get k = some p ∧ p.state = state) :
    (inState items' state).length ≤ (inState items state).length + ids.length := by
  have hcount : ∀ l : List String, l.countP (fun k => (items'.get k).map Proposal.state = some state) ≤
      l.countP (fun k => (items.get k).map Proposal.state = some state) +
        l.countP (fun k => k ∈ ids) := by
    intro l
    induction l with
    | nil => exact le_rfl
    | cons k l ih =>
        rw [List.countP_cons, List.countP_cons, List.countP_cons]
        by_cases hk : (items'.get k).map Proposal.state = some state
        · obtain ⟨p', hp', hstate⟩ := Option.map_eq_some_iff.mp hk
          rcases h k p' hp' hstate with hid | ⟨p, hp, hstate⟩
          · rw [if_pos (decide_eq_true hid)]
            split_ifs
            all_goals omega
          · rw [if_pos (decide_eq_true (show (items.get k).map Proposal.state = some state by
              rw [hp, Option.map_some, hstate]))]
            split_ifs
            all_goals omega
        · rw [if_neg (fun hdec => hk (of_decide_eq_true hdec))]
          omega
  rw [length_inState, length_inState, hkeys]
  exact (hcount items.keys).trans (Nat.add_le_add_left (countP_mem_le items.nodup_keys) _)

/-! ## What a tick does to a proposal -/

namespace ProposalQueue

variable {q : ProposalQueue P} {budget : InterruptionBudget} {now : ℚ}

/-- The items when the two loops of a tick are through. -/
def ready (q : ProposalQueue P) (budget : InterruptionBudget) (now : ℚ) : Items P :=
  let items := overwrite q.items (expiredBy q.items now)
  overwrite items (veiledBy items (decide (budget.mode = .suppressed)))

/-- What the tick surfaces, as it was. -/
def taken (q : ProposalQueue P) (budget : InterruptionBudget) (now : ℚ) : List (Proposal P) :=
  q.takenBy (q.ready budget now) budget

/-- What the two loops of a tick make of a proposal. -/
def readied (budget : InterruptionBudget) (now : ℚ) (p : Proposal P) : Proposal P :=
  if p.pending ∧ p.due now then p.expire
  else if p.state = .surfaced then p.veil (decide (budget.mode = .suppressed))
  else p

theorem get_expiredBy (h : Held items) : (overwrite items (expiredBy items now)).get k =
    (items.get k).map fun p => if p.pending ∧ p.due now then p.expire else p := by
  have hid : ∀ p : Proposal P, p.expire.id = p.id := fun _ => rfl
  rw [expiredBy, h.get_overwrite_filter hid]
  simp only [decide_eq_true_eq]

theorem get_veiledBy (h : Held items) {suppressed : Bool} :
    (overwrite items (veiledBy items suppressed)).get k =
      (items.get k).map fun p => if p.state = .surfaced then p.veil suppressed else p := by
  have hid : ∀ p : Proposal P, (p.veil suppressed).id = p.id := fun _ => rfl
  rw [veiledBy, inState, List.filter_filter, h.get_overwrite_filter hid]
  congr 1
  funext p
  by_cases hstate : p.state = .surfaced
  · by_cases hveiled : p.veiled = suppressed
    · subst hveiled
      have hsame : p.veil p.veiled = p := rfl
      simp [hstate, hsame]
    · simp [hstate, hveiled]
  · simp [hstate]

theorem held_ready (h : Held q.items) : Held (q.ready budget now) := h.overwrite.overwrite

theorem get_ready (h : Held q.items) :
    (q.ready budget now).get k = (q.items.get k).map (readied budget now) := by
  rw [ready, get_veiledBy h.overwrite, get_expiredBy h, Option.map_map]
  congr 1
  funext p
  rw [Function.comp_apply, readied]
  by_cases hdue : p.pending ∧ p.due now
  · rw [if_pos hdue, if_pos hdue, if_neg (fun hstate => ProposalState.noConfusion hstate)]
  · rw [if_neg hdue, if_neg hdue]

theorem keys_ready (h : Held q.items) : (q.ready budget now).keys = q.items.keys := by
  have hexpired : (overwrite q.items (expiredBy q.items now)).keys = q.items.keys :=
    (h.values.filter _).keys_overwrite fun _ => rfl
  have hveiled : (q.ready budget now).keys = (overwrite q.items (expiredBy q.items now)).keys :=
    ((h.overwrite.values.filter _).filter _).keys_overwrite fun _ => rfl
  exact hveiled.trans hexpired

theorem picked_taken (h : Held q.items) : Picked (q.ready budget now) (q.taken budget now) := by
  rw [taken, takenBy]
  split_ifs
  · exact (((held_ready h).values.filter _).perm (List.perm_insertionSort _ _)).take _
  · exact ⟨List.nodup_nil, fun p hp => nomatch hp⟩

theorem queued_of_mem_taken (hp : p ∈ q.taken budget now) : p.state = .queued := by
  rw [taken, takenBy] at hp
  split_ifs at hp
  · have hmem := (List.perm_insertionSort _ _).mem_iff.mp (List.mem_of_mem_take hp)
    exact of_decide_eq_true (List.mem_filter.mp hmem).2
  · exact nomatch hp

theorem tick_items : (q.tick budget now).1.items = overwrite (q.ready budget now)
    ((q.taken budget now).map (.surface now)) := rfl

theorem held_tick (h : Held q.items) : Held (q.tick budget now).1.items :=
  (held_ready h).overwrite

theorem keys_tick (h : Held q.items) : (q.tick budget now).1.items.keys = q.items.keys := by
  have hid : ∀ p : Proposal P, (p.surface now).id = p.id := fun _ => rfl
  rw [tick_items, (picked_taken h).keys_overwrite hid, keys_ready h]

/-- What a tick makes of a proposal. -/
inductive Ticked (q : ProposalQueue P) (budget : InterruptionBudget) (now : ℚ) (p : Proposal P) :
    Proposal P → Prop
  | expired : p.pending → p.due now → Ticked q budget now p p.expire
  | surfaced : p.state = .queued → ¬ p.due now → p ∈ q.taken budget now →
      Ticked q budget now p (p.surface now)
  | waits : p.state = .queued → ¬ p.due now → p ∉ q.taken budget now → Ticked q budget now p p
  | veiled : p.state = .surfaced → ¬ p.due now →
      Ticked q budget now p (p.veil (decide (budget.mode = .suppressed)))
  | ended : ¬ p.pending → Ticked q budget now p p

theorem readied_of_ended (h : ¬ p.pending) : readied budget now p = p := by
  rw [readied, if_neg fun hdue => h hdue.1, if_neg fun hstate => h (.inr hstate)]

theorem readied_of_queued (h : p.state = .queued) (hdue : ¬ p.due now) :
    readied budget now p = p := by
  rw [readied, if_neg fun hboth => hdue hboth.2,
    if_neg fun hstate => ProposalState.noConfusion (h.symm.trans hstate)]

theorem get_tick (h : Held q.items) (hk : q.items.get k = some p) :
    ∃ p', (q.tick budget now).1.items.get k = some p' ∧ Ticked q budget now p p' := by
  have hready : (q.ready budget now).get k = some (readied budget now p) := by
    rw [get_ready h, hk, Option.map_some]
  have htaken : Picked (q.ready budget now) (q.taken budget now) := picked_taken h
  have hid : ∀ p : Proposal P, (p.surface now).id = p.id := fun _ => rfl
  rw [tick_items, htaken.get_overwrite hid, hready, Option.map_some]
  refine ⟨_, rfl, ?_⟩
  have hmem : k ∈ (q.taken budget now).map Proposal.id ↔ readied budget now p ∈ q.taken budget now := by
    rw [List.mem_map]
    constructor
    · rintro ⟨r, hr, rfl⟩
      exact Option.some.inj ((htaken.held r hr).symm.trans hready) ▸ hr
    · intro hr
      exact ⟨_, hr, held_ready h k _ hready⟩
  by_cases hpending : p.pending
  · by_cases hdue : p.due now
    · have hexpired : readied budget now p = p.expire := by
        rw [readied, if_pos ⟨hpending, hdue⟩]
      rw [hexpired] at hmem ⊢
      rw [if_neg fun hr => ProposalState.noConfusion (queued_of_mem_taken (hmem.mp hr))]
      exact .expired hpending hdue
    rcases hpending with hqueued | hsurfaced
    · rw [readied_of_queued hqueued hdue] at hmem ⊢
      by_cases hr : p ∈ q.taken budget now
      · rw [if_pos (hmem.mpr hr)]
        exact .surfaced hqueued hdue hr
      · rw [if_neg (hmem.not.mpr hr)]
        exact .waits hqueued hdue hr
    · have hveiled : readied budget now p = p.veil (decide (budget.mode = .suppressed)) := by
        rw [readied, if_neg fun hboth => hdue hboth.2, if_pos hsurfaced]
      rw [hveiled] at hmem ⊢
      have hno : k ∉ (q.taken budget now).map Proposal.id := by
        intro hr
        have hqueued := queued_of_mem_taken (hmem.mp hr)
        exact ProposalState.noConfusion (hsurfaced.symm.trans hqueued)
      rw [if_neg hno]
      exact .veiled hsurfaced hdue
  · rw [readied_of_ended hpending] at hmem ⊢
    rw [if_neg fun hr => hpending (.inl (queued_of_mem_taken (hmem.mp hr)))]
    exact .ended hpending

/-! ## The invariant -/

/-- What holds of a queue that is only used through its operations. -/
structure Disciplined (q : ProposalQueue P) : Prop where
  held : Held q.items
  /-- the numbers are the places in the order of arrival -/
  arrival : ∀ k ∈ q.items.keys, q.order.get k = some (q.items.keys.idxOf k)
  seq : q.seq = q.items.keys.length
  unveiled : ∀ k p, q.items.get k = some p → p.state = .queued → p.veiled = false
  bounded : ((inState q.items .surfaced).length : ℚ) ≤ max 0 q.maxSurfaced

theorem disciplined_new (maxSurfaced : ℚ) :
    Disciplined ({ maxSurfaced } : ProposalQueue P) where
  held := fun _ _ h => nomatch h
  arrival := fun _ h => nomatch h
  seq := rfl
  unveiled := fun _ _ h => nomatch h
  bounded := by
    have hnone : (inState ({ maxSurfaced } : ProposalQueue P).items .surfaced).length = 0 := rfl
    rw [hnone, Nat.cast_zero]
    exact le_max_left 0 maxSurfaced

variable {q' : ProposalQueue P} {np : NewProposal P} {id : String}

/-- The proposal that is enqueued. -/
def NewProposal.item (np : NewProposal P) (now : ℚ) : Proposal P :=
  { id := np.id, kind := np.kind, payload := np.payload, summary := np.summary,
    createdAt := now, expiresAt := np.expiresAt, state := .queued, resolution := none,
    surfacedAt := none, veiled := false }

theorem enqueue_eq_some (h : q.enqueue np now = some q') : q.items.get np.id = none ∧
    q' = { q with items := q.items.set np.id (np.item now), order := q.order.set np.id q.seq,
                  seq := q.seq + 1 } := by
  rw [enqueue] at h
  cases hget : q.items.get np.id with
  | some p => rw [hget] at h; exact nomatch h
  | none =>
      rw [hget] at h
      exact ⟨rfl, (Option.some.inj h).symm⟩

theorem Disciplined.enqueue (hq : Disciplined q) (h : q.enqueue np now = some q') :
    Disciplined q' := by
  obtain ⟨hnew, rfl⟩ := enqueue_eq_some h
  have hfresh : np.id ∉ q.items.keys := OrderedDict.get_eq_none_iff.mp hnew
  have hkeys : (q.items.set np.id (np.item now)).keys = q.items.keys ++ [np.id] := by
    rw [OrderedDict.keys_set, if_neg hfresh]
  refine ⟨hq.held.set (np.item now), fun k hk => ?_, ?_, fun k p hp hstate => ?_, ?_⟩
  · rw [OrderedDict.get_set]
    dsimp only at hk ⊢
    rw [hkeys] at hk ⊢
    by_cases hid : k = np.id
    · rw [if_pos hid, hq.seq, hid, List.idxOf_append_of_notMem hfresh, List.idxOf_cons_self, Nat.add_zero]
    · have hold : k ∈ q.items.keys := by
        rcases List.mem_append.mp hk with hold | hlast
        · exact hold
        · exact absurd (List.mem_singleton.mp hlast) hid
      rw [if_neg hid, hq.arrival k hold, List.idxOf_append_of_mem hold]
  · dsimp only
    rw [hkeys, List.length_append, hq.seq]
    rfl
  · rw [OrderedDict.get_set] at hp
    split_ifs at hp
    · exact Option.some.inj hp ▸ rfl
    · exact hq.unveiled k p hp hstate
  · refine le_trans ?_ hq.bounded
    rw [Nat.cast_le, length_inState, length_inState, hkeys, List.countP_append]
    have hlast : ([np.id].countP fun k => ((q.items.set np.id (np.item now)).get k).map
        Proposal.state = some .surfaced) = 0 := by
      rw [List.countP_singleton, OrderedDict.get_set, if_pos rfl]
      rfl
    rw [hlast, Nat.add_zero]
    refine List.countP_mono_left fun k hk hs => ?_
    rw [OrderedDict.get_set, if_neg fun heq : k = np.id => hfresh (heq ▸ hk)] at hs
    exact hs

theorem move_eq_some {items items' : Items P} {target : ProposalState}
    {patch : Proposal P → Proposal P} (h : move items id target patch = some items') :
    ∃ p, items.get id = some p ∧ target ∈ NEXT p.state ∧
      items' = items.set id { patch p with state := target } := by
  rw [move] at h
  cases hget : items.get id with
  | none => rw [hget] at h; exact nomatch h
  | some p =>
      rw [hget] at h
      dsimp only at h
      split_ifs at h with hnext
      exact ⟨p, rfl, hnext, (Option.some.inj h).symm⟩

/-- A move to a final state. -/
theorem Disciplined.move (hq : Disciplined q) {items' : Items P} {target : ProposalState}
    {patch : Proposal P → Proposal P} (h : move q.items id target patch = some items')
    (hpatch : ∀ p, (patch p).id = p.id) (hsurfaced : target ≠ .surfaced) (hqueued : target ≠ .queued) :
    Disciplined { q with items := items' } := by
  obtain ⟨p, hp, -, rfl⟩ := move_eq_some h
  have hkeys : (q.items.set id { patch p with state := target }).keys = q.items.keys := by
    rw [OrderedDict.keys_set, if_pos (OrderedDict.mem_keys.mpr ⟨p, hp⟩)]
  have hpid : ({ patch p with state := target } : Proposal P).id = id :=
    (hpatch p).trans (hq.held id p hp)
  refine ⟨fun k r hr => ?_, fun k hk => ?_, ?_, fun k r hr hstate => ?_, ?_⟩
  · rw [OrderedDict.get_set] at hr
    split_ifs at hr with hk
    · exact Option.some.inj hr ▸ hpid.trans hk.symm
    · exact hq.held k r hr
  · dsimp only at hk ⊢
    rw [hkeys] at hk ⊢
    exact hq.arrival k hk
  · dsimp only
    rw [hkeys, hq.seq]
  · rw [OrderedDict.get_set] at hr
    split_ifs at hr
    · obtain rfl := Option.some.inj hr
      exact absurd hstate hqueued
    · exact hq.unveiled k r hr hstate
  · refine le_trans (Nat.cast_le.mpr (length_inState_le hkeys fun k r hr hstate => ?_)) hq.bounded
    rw [OrderedDict.get_set] at hr
    split_ifs at hr
    · obtain rfl := Option.some.inj hr
      exact absurd hstate hsurfaced
    · exact ⟨r, hr, hstate⟩

theorem length_taken : ((q.taken budget now).length : ℚ) ≤
    max 0 (min budget.slots (q.maxSurfaced - (inState (q.ready budget now) .surfaced).length)) := by
  rw [taken, takenBy]
  dsimp only
  split_ifs with hfree
  · refine le_max_of_le_right (le_trans (Nat.cast_le.mpr (List.length_take_le _ _)) ?_)
    have hfloor : (⌊min budget.slots
        (q.maxSurfaced - (inState (q.ready budget now) .surfaced).length)⌋.toNat : ℤ) =
        ⌊min budget.slots (q.maxSurfaced - (inState (q.ready budget now) .surfaced).length)⌋ :=
      Int.toNat_of_nonneg (Int.floor_nonneg.mpr hfree.2.le)
    rw [← Int.cast_natCast, hfloor]
    exact Int.floor_le _
  · rw [List.length_nil, Nat.cast_zero]
    exact le_max_left _ _

theorem open_of_mem_taken (hp : p ∈ q.taken budget now) :
    budget.mode ≠ .suppressed ∧ 0 < budget.slots := by
  rw [taken, takenBy] at hp
  split_ifs at hp with hfree
  · exact ⟨hfree.1, (lt_min_iff.mp hfree.2).1⟩
  · exact nomatch hp

/-- What a tick leaves at a key, it has made of what was there. -/
theorem get_tick_inv {p' : Proposal P} (h : Held q.items)
    (hp' : (q.tick budget now).1.items.get k = some p') :
    ∃ p, q.items.get k = some p ∧ Ticked q budget now p p' := by
  have hk : k ∈ q.items.keys := keys_tick h ▸ OrderedDict.mem_keys.mpr ⟨p', hp'⟩
  obtain ⟨p, hp⟩ := OrderedDict.mem_keys.mp hk
  obtain ⟨p'', hp'', hticked⟩ := @get_tick P k p q budget now h hp
  exact ⟨p, hp, Option.some.inj (hp''.symm.trans hp') ▸ hticked⟩

theorem length_surfaced_ready (h : Held q.items) :
    (inState (q.ready budget now) .surfaced).length ≤ (inState q.items .surfaced).length := by
  refine length_inState_le (keys_ready h) fun k r hr hstate => ?_
  rw [get_ready h] at hr
  obtain ⟨p, hp, rfl⟩ := Option.map_eq_some_iff.mp hr
  refine ⟨p, hp, ?_⟩
  rw [readied] at hstate
  by_cases hdue : p.pending ∧ p.due now
  · rw [if_pos hdue] at hstate
    exact nomatch hstate
  rw [if_neg hdue] at hstate
  by_cases hsurfaced : p.state = .surfaced
  · exact hsurfaced
  · rw [if_neg hsurfaced] at hstate
    exact hstate

theorem length_surfaced_tick (h : Held q.items) : (inState (q.tick budget now).1.items .surfaced).length ≤
    (inState (q.ready budget now) .surfaced).length + (q.taken budget now).length := by
  have hkeys : (q.tick budget now).1.items.keys = (q.ready budget now).keys :=
    (keys_tick h).trans (keys_ready h).symm
  have hids : ((q.taken budget now).map Proposal.id).length = (q.taken budget now).length :=
    List.length_map _
  rw [← hids]
  refine length_inState_add hkeys fun k p' hp' hstate => ?_
  have hid : ∀ p : Proposal P, (p.surface now).id = p.id := fun _ => rfl
  rw [tick_items, (picked_taken h).get_overwrite hid] at hp'
  obtain ⟨r, hr, rfl⟩ := Option.map_eq_some_iff.mp hp'
  by_cases hk : k ∈ (q.taken budget now).map Proposal.id
  · exact .inl hk
  · rw [if_neg hk] at hstate
    exact .inr ⟨r, hr, hstate⟩

theorem Disciplined.tick (hq : Disciplined q) : Disciplined (q.tick budget now).1 := by
  have hkeys : (q.tick budget now).1.items.keys = q.items.keys := keys_tick hq.held
  refine ⟨held_tick hq.held, fun k hk => ?_, ?_, fun k p' hp' hstate => ?_, ?_⟩
  · rw [hkeys] at hk ⊢
    exact hq.arrival k hk
  · rw [hkeys]
    exact hq.seq
  · obtain ⟨p, hp, hticked⟩ := get_tick_inv hq.held hp'
    cases hticked with
    | expired => exact nomatch hstate
    | surfaced => exact nomatch hstate
    | waits hqueued => exact hq.unveiled k _ hp hqueued
    | veiled hsurfaced => exact nomatch hsurfaced.symm.trans hstate
    | ended hended => exact absurd (.inl hstate) hended
  · have htick := Nat.cast_le (α := ℚ).mpr (@length_surfaced_tick P q budget now hq.held)
    have hready := Nat.cast_le (α := ℚ).mpr (@length_surfaced_ready P q budget now hq.held)
    have htaken := @length_taken P q budget now
    have hbounded := hq.bounded
    rw [Nat.cast_add] at htick
    change _ ≤ max 0 q.maxSurfaced
    rcases max_choice 0 (min budget.slots
        (q.maxSurfaced - ((inState (q.ready budget now) .surfaced).length : ℚ))) with hmax | hmax
    · rw [hmax] at htaken
      linarith
    · rw [hmax] at htaken
      have hmin := min_le_right budget.slots
        (q.maxSurfaced - ((inState (q.ready budget now) .surfaced).length : ℚ))
      exact le_max_of_le_right (by linarith)

/-! ## The order -/

/-- The earlier deadline, and among equals the earlier arrival. -/
def Before (items : Items P) (p p' : Proposal P) : Prop :=
  p.deadline < p'.deadline ∨
    p.deadline = p'.deadline ∧ items.keys.idxOf p.id < items.keys.idxOf p'.id

theorem Disciplined.before_of_rank_le (hq : Disciplined q) {p p' : Proposal P}
    (hp : p.id ∈ q.items.keys) (hp' : p'.id ∈ q.items.keys) (hne : p.id ≠ p'.id)
    (h : q.rank p ≤ q.rank p') : Before q.items p p' := by
  rw [rank, rank, hq.arrival _ hp, hq.arrival _ hp', Prod.Lex.toLex_le_toLex] at h
  rcases h with hlt | ⟨heq, hle⟩
  · exact .inl hlt
  · exact .inr ⟨heq, lt_of_le_of_ne hle fun hidx => hne (List.idxOf_inj hp |>.mp hidx)⟩

/-- The waiting proposals, in their order. -/
theorem Disciplined.sorted (hq : Disciplined q) {ps : List (Proposal P)}
    (hps : Picked (q.ready budget now) ps) :
    (ps.insertionSort fun a b => q.rank a ≤ q.rank b).Pairwise (Before q.items) := by
  have : Std.Total (fun a b : Proposal P => q.rank a ≤ q.rank b) := ⟨fun a b => le_total _ _⟩
  have : IsTrans _ (fun a b : Proposal P => q.rank a ≤ q.rank b) := ⟨fun a b c => le_trans⟩
  have hsorted := List.pairwise_insertionSort (fun a b : Proposal P => q.rank a ≤ q.rank b) ps
  have hperm := List.perm_insertionSort (fun a b : Proposal P => q.rank a ≤ q.rank b) ps
  have hpicked := hps.perm hperm
  have hkey : ∀ p ∈ ps.insertionSort fun a b => q.rank a ≤ q.rank b, p.id ∈ q.items.keys := by
    intro p hp
    rw [← @keys_ready P q budget now hq.held]
    exact OrderedDict.mem_keys.mpr ⟨p, hpicked.held p hp⟩
  have hids := List.pairwise_map.mp hpicked.nodup
  exact (hsorted.and hids).imp_of_mem fun ha hb hab =>
    hq.before_of_rank_le (hkey _ ha) (hkey _ hb) hab.2 hab.1

/-- What a tick surfaces is in order, and before all that still wait. -/
theorem Disciplined.taken_before (hq : Disciplined q) : (q.taken budget now).Pairwise (Before q.items) ∧
    ∀ p ∈ q.taken budget now, ∀ w, (q.tick budget now).1.items.get w.id = some w →
      w.state = .queued → Before q.items p w := by
  have hpicked : Picked (q.ready budget now) (inState (q.ready budget now) .queued) :=
    (held_ready hq.held).values.filter _
  have hsorted := hq.sorted hpicked
  have hmem : ∀ w, (q.tick budget now).1.items.get w.id = some w → w.state = .queued →
      w ∈ inState (q.ready budget now) .queued ∧ w ∉ q.taken budget now := by
    intro w hw hstate
    obtain ⟨p, hp, hticked⟩ := get_tick_inv hq.held hw
    cases hticked with
    | expired => cases hstate
    | surfaced => cases hstate
    | waits hqueued hdue htaken =>
        have hready : (q.ready budget now).get w.id = some w := by
          rw [get_ready hq.held, hp, Option.map_some, readied_of_queued hqueued hdue]
        have hvalue : w ∈ (q.ready budget now).values :=
          OrderedDict.mem_values.mpr ⟨w.id, hready⟩
        exact ⟨List.mem_filter.mpr ⟨hvalue, decide_eq_true hstate⟩, htaken⟩
    | veiled hsurfaced => cases hsurfaced.symm.trans hstate
    | ended hended => exact absurd (.inl hstate) hended
  rw [taken, takenBy] at hmem ⊢
  dsimp only at hmem ⊢
  split_ifs at hmem ⊢
  · rw [← List.take_append_drop ⌊min budget.slots
      (q.maxSurfaced - ((inState (q.ready budget now) .surfaced).length : ℚ))⌋.toNat
      ((inState (q.ready budget now) .queued).insertionSort fun a b => q.rank a ≤ q.rank b),
      List.pairwise_append] at hsorted
    refine ⟨hsorted.1, fun p hp w hw hstate => hsorted.2.2 p hp w ?_⟩
    obtain ⟨hwaits, hleft⟩ := hmem w hw hstate
    have hin := (List.perm_insertionSort (fun a b : Proposal P => q.rank a ≤ q.rank b) _).mem_iff.mpr
      hwaits
    rw [← List.take_append_drop ⌊min budget.slots
      (q.maxSurfaced - ((inState (q.ready budget now) .surfaced).length : ℚ))⌋.toNat
      ((inState (q.ready budget now) .queued).insertionSort fun a b => q.rank a ≤ q.rank b)] at hin
    exact (List.mem_append.mp hin).resolve_left hleft
  · exact ⟨List.Pairwise.nil, fun p hp => by cases hp⟩

end ProposalQueue

end Secdogie.Symbiont
