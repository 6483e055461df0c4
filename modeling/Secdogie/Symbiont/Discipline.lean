/-
# `Secdogie.Symbiont.Discipline` — the queue over whole runs

A run is any list of calls, of which those that throw change nothing.  What
has ended stays as it is (`get_step_ended`), and a tick past a deadline ends
the proposal (`ended_of_pastDeadline`); so there is one tick at most that
reports it expired, and it is the first one past the deadline.
-/
import Secdogie.Symbiont.ProposalQueue

namespace Secdogie.Symbiont

namespace ProposalQueue

variable {P : Type} {q : ProposalQueue P} {k : String} {p : Proposal P}

inductive Op (P : Type) where
  | enqueue (p : NewProposal P) (now : ℚ)
  | tick (budget : InterruptionBudget) (now : ℚ)
  | resolve (id : String) (resolution : ProposalResolution)
  | withdraw (id : String)

/-- A call; one that throws changes nothing. -/
def step (q : ProposalQueue P) : Op P → ProposalQueue P
  | .enqueue p now => (q.enqueue p now).getD q
  | .tick budget now => (q.tick budget now).1
  | .resolve id resolution => (q.resolve id resolution).getD q
  | .withdraw id => (q.withdraw id).getD q

/-- A new queue after some calls. -/
def run (maxSurfaced : ℚ) (ops : List (Op P)) : ProposalQueue P :=
  ops.foldl step { maxSurfaced }

/-- The ids that a call reports as expired. -/
def expiredIds (q : ProposalQueue P) : Op P → List String
  | .tick budget now => (q.tick budget now).2.expired.map Proposal.id
  | _ => []

/-- How often a run reports an id as expired. -/
def reports (k : String) : ProposalQueue P → List (Op P) → ℕ
  | _, [] => 0
  | q, op :: ops => (q.expiredIds op).count k + reports k (q.step op) ops

/-! ## Steps -/

/-- What a call can do to a queue. -/
inductive Stepped (q : ProposalQueue P) : Op P → ProposalQueue P → Prop
  | throws (op : Op P) : Stepped q op q
  | enqueued {np : NewProposal P} {now : ℚ} {q' : ProposalQueue P} :
      q.enqueue np now = some q' → Stepped q (.enqueue np now) q'
  | ticked (budget : InterruptionBudget) (now : ℚ) :
      Stepped q (.tick budget now) (q.tick budget now).1
  | moved {op : Op P} {id : String} {target : ProposalState} {patch : Proposal P → Proposal P}
      {items : Items P} : target ≠ .surfaced → target ≠ .queued → (∀ p, (patch p).id = p.id) →
      move q.items id target patch = some items → Stepped q op { q with items }

theorem stepped (q : ProposalQueue P) (op : Op P) : Stepped q op (q.step op) := by
  cases op with
  | enqueue np now =>
      rw [step]
      cases h : q.enqueue np now with
      | none => exact .throws _
      | some q' => exact .enqueued h
  | tick budget now => exact .ticked budget now
  | resolve id resolution =>
      rw [step]
      cases h : q.resolve id resolution with
      | none => exact .throws _
      | some q' =>
          obtain ⟨items, hmove, rfl⟩ := Option.map_eq_some_iff.mp h
          refine .moved ProposalState.noConfusion ProposalState.noConfusion ?_ hmove
          exact fun _ => rfl
  | withdraw id =>
      rw [step]
      cases h : q.withdraw id with
      | none => exact .throws _
      | some q' =>
          obtain ⟨items, hmove, rfl⟩ := Option.map_eq_some_iff.mp h
          refine .moved ProposalState.noConfusion ProposalState.noConfusion ?_ hmove
          exact fun _ => rfl

theorem Disciplined.stepped (hq : Disciplined q) {op : Op P} {q' : ProposalQueue P}
    (h : Stepped q op q') : Disciplined q' := by
  cases h with
  | throws => exact hq
  | enqueued h => exact hq.enqueue h
  | ticked budget now => exact hq.tick
  | moved hsurfaced hqueued hpatch hmove => exact hq.move hmove hpatch hsurfaced hqueued

theorem disciplined_run (maxSurfaced : ℚ) (ops : List (Op P)) : Disciplined (run maxSurfaced ops) :=
  Along.inv_foldl (fun q op hq => hq.stepped (stepped q op)) ops (disciplined_new maxSurfaced)

theorem maxSurfaced_run (maxSurfaced : ℚ) (ops : List (Op P)) :
    (run maxSurfaced ops).maxSurfaced = maxSurfaced := by
  have hstep : ∀ (q : ProposalQueue P) op, q.maxSurfaced = maxSurfaced →
      (q.step op).maxSurfaced = maxSurfaced := by
    intro q op hq
    have hstepped := stepped q op
    generalize q.step op = q' at hstepped ⊢
    cases hstepped with
    | throws => exact hq
    | enqueued h => exact (enqueue_eq_some h).2 ▸ hq
    | ticked => exact hq
    | moved => exact hq
  exact Along.inv_foldl hstep ops rfl

/-- A move starts from what is pending, so what has ended is not moved. -/
theorem get_move_ended {items' : Items P} {id : String} {target : ProposalState}
    {patch : Proposal P → Proposal P} (h : move q.items id target patch = some items')
    (hk : q.items.get k = some p) (hended : ¬ p.pending) : items'.get k = some p := by
  obtain ⟨r, hr, hnext, rfl⟩ := move_eq_some h
  rw [OrderedDict.get_set]
  by_cases hid : k = id
  · exfalso
    obtain rfl := Option.some.inj ((hid ▸ hk).symm.trans hr)
    cases hstate : p.state with
    | queued => exact hended (.inl hstate)
    | surfaced => exact hended (.inr hstate)
    | resolved => rw [hstate] at hnext; exact nomatch hnext
    | expired => rw [hstate] at hnext; exact nomatch hnext
    | withdrawn => rw [hstate] at hnext; exact nomatch hnext
  · rw [if_neg hid, hk]

/-- What has ended stays as it is. -/
theorem get_step_ended (hq : Disciplined q) (hk : q.items.get k = some p) (hended : ¬ p.pending)
    (op : Op P) : (q.step op).items.get k = some p := by
  have hstepped := stepped q op
  generalize q.step op = q' at hstepped ⊢
  cases hstepped with
  | throws => exact hk
  | @enqueued np _ _ h =>
      obtain ⟨hnew, heq⟩ := enqueue_eq_some h
      have hne : k ≠ np.id := by
        rintro rfl
        exact nomatch hnew.symm.trans hk
      rw [heq, OrderedDict.get_set, if_neg hne, hk]
  | ticked budget now =>
      obtain ⟨p', hp', hticked⟩ := get_tick hq.held hk
      cases hticked with
      | expired hpending => exact absurd hpending hended
      | surfaced hqueued => exact absurd (.inl hqueued) hended
      | waits => exact hp'
      | veiled hsurfaced => exact absurd (.inr hsurfaced) hended
      | ended => exact hp'
  | moved _ _ _ hmove => exact get_move_ended hmove hk hended

theorem get_foldl_ended : ∀ {ops : List (Op P)} {q : ProposalQueue P}, Disciplined q →
    q.items.get k = some p → ¬ p.pending → (ops.foldl step q).items.get k = some p
  | [], _, _, hk, _ => hk
  | op :: ops, q, hq, hk, hended =>
      @get_foldl_ended ops (q.step op) (hq.stepped (stepped q op)) (get_step_ended hq hk hended op)
        hended

/-- A call makes a proposal surfaced only as a tick with free slots does. -/
theorem surfaced_step {p' : Proposal P} {op : Op P} (hq : Disciplined q)
    (hp' : (q.step op).items.get k = some p') (hstate : p'.state = .surfaced) :
    (∃ p, q.items.get k = some p ∧ p.state = .surfaced) ∨
      ∃ budget now, op = .tick budget now ∧ budget.mode ≠ .suppressed ∧ 0 < budget.slots ∧
        p' ∈ (q.tick budget now).2.surfaced := by
  have hstepped := stepped q op
  generalize q.step op = q' at hstepped hp'
  cases hstepped with
  | throws => exact .inl ⟨p', hp', hstate⟩
  | @enqueued np _ _ h =>
      rw [(enqueue_eq_some h).2, OrderedDict.get_set] at hp'
      by_cases hid : k = np.id
      · rw [if_pos hid] at hp'
        obtain rfl := Option.some.inj hp'
        exact nomatch hstate
      · rw [if_neg hid] at hp'
        exact .inl ⟨p', hp', hstate⟩
  | ticked budget now =>
      obtain ⟨p, hp, hticked⟩ := get_tick_inv hq.held hp'
      cases hticked with
      | expired => exact nomatch hstate
      | surfaced hqueued hdue htaken =>
          obtain ⟨hmode, hslots⟩ := open_of_mem_taken htaken
          exact .inr ⟨budget, now, rfl, hmode, hslots, List.mem_map_of_mem htaken⟩
      | waits hqueued => exact nomatch hqueued.symm.trans hstate
      | veiled hsurfaced => exact .inl ⟨p, hp, hsurfaced⟩
      | ended hended => exact absurd (.inr hstate) hended
  | @moved _ id _ _ _ hsurfaced _ _ hmove =>
      obtain ⟨r, -, -, rfl⟩ := move_eq_some hmove
      rw [OrderedDict.get_set] at hp'
      by_cases hid : k = id
      · rw [if_pos hid] at hp'
        obtain rfl := Option.some.inj hp'
        exact absurd hstate hsurfaced
      · rw [if_neg hid] at hp'
        exact .inl ⟨p', hp', hstate⟩

/-! ## Expired, and reported so, once -/

/-- A tick past the deadline of a proposal that the queue has. -/
def PastDeadline (k : String) (q : ProposalQueue P) (op : Op P) : Prop :=
  ∃ budget now p, op = .tick budget now ∧ q.items.get k = some p ∧ p.due now

def PendingAt (k : String) (q : ProposalQueue P) : Prop :=
  ∃ p, q.items.get k = some p ∧ p.pending

/-- After a tick past its deadline a proposal is not pending. -/
theorem ended_of_pastDeadline {op : Op P} (hq : Disciplined q) (h : PastDeadline k q op) :
    ∃ p', (q.step op).items.get k = some p' ∧ ¬ p'.pending := by
  obtain ⟨budget, now, p, rfl, hp, hdue⟩ := h
  obtain ⟨p', hp', hticked⟩ := get_tick hq.held hp
  refine ⟨p', hp', ?_⟩
  cases hticked with
  | expired => rintro (hstate | hstate) <;> exact nomatch hstate
  | surfaced _ hnot => exact absurd hdue hnot
  | waits _ hnot => exact absurd hdue hnot
  | veiled _ hnot => exact absurd hdue hnot
  | ended hended => exact hended

/-- A call reports an id as expired if it is a tick past its deadline that comes upon it pending. -/
theorem count_expiredIds (hq : Disciplined q) (op : Op P) :
    (PastDeadline k q op ∧ PendingAt k q → (q.expiredIds op).count k = 1) ∧
    (¬ (PastDeadline k q op ∧ PendingAt k q) → (q.expiredIds op).count k = 0) := by
  have hmem : k ∈ q.expiredIds op ↔ PastDeadline k q op ∧ PendingAt k q := by
    cases op with
    | tick budget now =>
        constructor
        · intro hk
          obtain ⟨e, he, rfl⟩ := List.mem_map.mp hk
          obtain ⟨p, hp, rfl⟩ := List.mem_map.mp he
          have hget := (hq.held.values.filter _).held p hp
          obtain ⟨hpending, hdue⟩ := of_decide_eq_true (List.mem_filter.mp hp).2
          exact ⟨⟨budget, now, p, rfl, hget, hdue⟩, p, hget, hpending⟩
        · rintro ⟨⟨budget', now', p, heq, hp, hdue⟩, p', hp', hpending⟩
          obtain ⟨rfl, rfl⟩ := Op.tick.inj heq
          obtain rfl := Option.some.inj (hp.symm.trans hp')
          have hvalue : p ∈ q.items.values := OrderedDict.mem_values.mpr ⟨k, hp⟩
          have hfilter : p ∈ q.items.values.filter fun p => p.pending ∧ p.due now :=
            List.mem_filter.mpr ⟨hvalue, decide_eq_true ⟨hpending, hdue⟩⟩
          exact List.mem_map.mpr ⟨p.expire, List.mem_map_of_mem hfilter, hq.held k p hp⟩
    | enqueue => exact iff_of_false List.not_mem_nil fun ⟨⟨_, _, _, heq, _⟩, _⟩ => nomatch heq
    | resolve => exact iff_of_false List.not_mem_nil fun ⟨⟨_, _, _, heq, _⟩, _⟩ => nomatch heq
    | withdraw => exact iff_of_false List.not_mem_nil fun ⟨⟨_, _, _, heq, _⟩, _⟩ => nomatch heq
  have hnodup : (q.expiredIds op).Nodup := by
    cases op with
    | tick budget now =>
        have hids : (q.expiredIds (.tick budget now)) =
            (q.items.values.filter fun p => p.pending ∧ p.due now).map Proposal.id :=
          List.map_map
        rw [hids]
        exact (hq.held.values.filter _).nodup
    | enqueue => exact List.nodup_nil
    | resolve => exact List.nodup_nil
    | withdraw => exact List.nodup_nil
  exact ⟨fun h => List.count_eq_one_of_mem hnodup (hmem.mpr h),
    fun h => List.count_eq_zero.mpr fun hk => h (hmem.mp hk)⟩

/-- What has ended is not reported any more. -/
theorem reports_ended : ∀ {ops : List (Op P)} {q : ProposalQueue P}, Disciplined q →
    q.items.get k = some p → ¬ p.pending → reports k q ops = 0
  | [], _, _, _, _ => rfl
  | op :: ops, q, hq, hk, hended => by
      have hnot : ¬ (PastDeadline k q op ∧ PendingAt k q) := by
        rintro ⟨-, p', hp', hpending⟩
        exact hended (Option.some.inj (hk.symm.trans hp') ▸ hpending)
      rw [reports, (count_expiredIds hq op).2 hnot, Nat.zero_add]
      exact reports_ended (hq.stepped (stepped q op)) (get_step_ended hq hk hended op) hended

/-- Pending at the first tick of a run that is past its deadline. -/
def PendingWhenDue (k : String) (q : ProposalQueue P) (ops : List (Op P)) : Prop :=
  ∃ before op after, ops = before ++ op :: after ∧
    Along.All step (fun q op => ¬ PastDeadline k q op) q before ∧
    PastDeadline k (before.foldl step q) op ∧ PendingAt k (before.foldl step q)

/-- The first tick past the deadline decides. -/
theorem pendingWhenDue_cons {op : Op P} {ops : List (Op P)} :
    PendingWhenDue k q (op :: ops) ↔ PastDeadline k q op ∧ PendingAt k q ∨
      ¬ PastDeadline k q op ∧ PendingWhenDue k (q.step op) ops := by
  constructor
  · rintro ⟨before, op', after, heq, hall, hpast, hpending⟩
    cases before with
    | nil =>
        obtain ⟨rfl, -⟩ := List.cons.inj heq
        exact .inl ⟨hpast, hpending⟩
    | cons first before =>
        obtain ⟨rfl, rfl⟩ := List.cons.inj heq
        exact .inr ⟨hall.1, before, op', after, rfl, hall.2, hpast, hpending⟩
  · rintro (⟨hpast, hpending⟩ | ⟨hnot, before, op', after, rfl, hall, hpast, hpending⟩)
    · exact ⟨[], op, ops, rfl, trivial, hpast, hpending⟩
    · exact ⟨op :: before, op', after, rfl, ⟨hnot, hall⟩, hpast, hpending⟩

/-- A proposal is reported expired once at most, and so if it was pending when it was first due. -/
theorem reports_le_one : ∀ {ops : List (Op P)} {q : ProposalQueue P}, Disciplined q →
    reports k q ops ≤ 1 ∧ (reports k q ops = 1 ↔ PendingWhenDue k q ops)
  | [], q, _ => by
      refine ⟨Nat.zero_le 1, iff_of_false (fun h => nomatch h) ?_⟩
      rintro ⟨before, op, after, heq, -⟩
      exact List.append_ne_nil_of_right_ne_nil before (List.cons_ne_nil op after) heq.symm
  | op :: ops, q, hq => by
      have hstep := hq.stepped (stepped q op)
      rw [reports, pendingWhenDue_cons]
      by_cases hpast : PastDeadline k q op
      · obtain ⟨p', hp', hended⟩ := ended_of_pastDeadline hq hpast
        rw [reports_ended hstep hp' hended, Nat.add_zero]
        by_cases hpending : PendingAt k q
        · rw [(count_expiredIds hq op).1 ⟨hpast, hpending⟩]
          exact ⟨le_rfl, iff_of_true rfl (.inl ⟨hpast, hpending⟩)⟩
        · rw [(count_expiredIds hq op).2 fun h => hpending h.2]
          refine ⟨Nat.zero_le 1, iff_of_false (fun h => nomatch h) ?_⟩
          rintro (⟨-, h⟩ | ⟨h, -⟩)
          · exact hpending h
          · exact h hpast
      · obtain ⟨hle, hiff⟩ := @reports_le_one ops (q.step op) hstep
        rw [(count_expiredIds hq op).2 fun h => hpast h.1, Nat.zero_add, hiff]
        refine ⟨hle, ⟨fun h => .inr ⟨hpast, h⟩, ?_⟩⟩
        rintro (⟨h, -⟩ | ⟨-, h⟩)
        · exact absurd h hpast
        · exact h

/-! ## The discipline -/

/-- After a tick what is surfaced is veiled as the mode is. -/
theorem veiled_tick {budget : InterruptionBudget} {now : ℚ} {p' : Proposal P} (hq : Disciplined q)
    (hp' : (q.tick budget now).1.items.get k = some p') (hstate : p'.state = .surfaced) :
    p'.veiled = true ↔ budget.mode = .suppressed := by
  obtain ⟨p, hp, hticked⟩ := get_tick_inv hq.held hp'
  cases hticked with
  | expired => exact nomatch hstate
  | surfaced hqueued _ htaken =>
      have hveiled : (p.surface now).veiled = false := hq.unveiled k p hp hqueued
      rw [hveiled]
      exact iff_of_false (fun h => nomatch h) (open_of_mem_taken htaken).1
  | waits hqueued => exact nomatch hqueued.symm.trans hstate
  | veiled => exact decide_eq_true_iff
  | ended hended => exact absurd (.inr hstate) hended

theorem length_surfaced_events {budget : InterruptionBudget} {now : ℚ} :
    ((q.tick budget now).2.surfaced.length : ℚ) ≤ max 0 budget.slots := by
  have htaken := @length_taken P q budget now
  have hlength : (q.tick budget now).2.surfaced.length = (q.taken budget now).length :=
    List.length_map _
  rw [hlength]
  exact htaken.trans (max_le_max le_rfl (min_le_left _ _))

end ProposalQueue

end Secdogie.Symbiont
