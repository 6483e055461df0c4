/-
# `Secdogie.Fleet.Dispatch` — runs of a coordinator

The operations that send, and what holds in every run.  `pump_rule` is the
rule for the dispatch loop: what each assignment keeps, `pump` keeps.  `Idles`
says what no operation but `pump` does: start a task, or use up an attempt.
-/
import Secdogie.Fleet.Scheduling

namespace Secdogie.Fleet.Coordinator

variable {W O : Type} {c c' c'' : Coordinator W O} {tid x nid : String} {t : Task O} {n : Node}

/-! ## Operations that send -/

section

variable {send : Coordinator W O → String → Message O → Coordinator W O}

theorem pump_loop_rule {P : Coordinator W O → Prop}
    (hassign : ∀ c tid t n, P c → c.tasks.get tid = some t → t.state = .QUEUED →
      c.at_cap = false → c.idle_node t = some n →
      P (send (c.assigned tid t n) n.node_id (.assign tid t.task t.options))) :
    ∀ (order : List String) (c : Coordinator W O) (k : ℕ), P c → P (pump_loop send order c k).2
  | [], _, _, h => h
  | tid :: rest, c, k, h => by
      rw [pump_loop]
      cases hget : c.tasks.get tid with
      | none => exact pump_loop_rule hassign rest c k h
      | some t =>
          simp only
          split_ifs with hq hcap
          · exact pump_loop_rule hassign rest c k h
          · exact h
          · cases hidle : c.idle_node t with
            | none => exact h
            | some n =>
                refine pump_loop_rule hassign rest _ _ ?_
                exact hassign c tid t n h hget (not_not.mp hq) (by simpa using hcap) hidle

/-- What holds after each assignment of a loop pass holds after `pump`. -/
theorem pump_rule {P : Coordinator W O → Prop}
    (hassign : ∀ c tid t n, P c → c.tasks.get tid = some t → t.state = .QUEUED →
      c.at_cap = false → c.idle_node t = some n →
      P (send (c.assigned tid t n) n.node_id (.assign tid t.task t.options)))
    (h : P c) : P (c.pump send).2 :=
  pump_loop_rule hassign c.order c 0 h

/-- What each pause keeps, `pause_below_priority` keeps. -/
theorem pause_below_rule {P : Coordinator W O → Prop} {min_priority : ℤ} {reason : String}
    (hpause : ∀ c tid, P c → P (c.pause_task send tid reason).2) (h : P c) :
    P (c.pause_below_priority send min_priority reason).2 := by
  have hloop : ∀ (tids : List String) (acc : List String × Coordinator W O), P acc.2 →
      P (tids.foldl (pause_one send min_priority reason) acc).2 := by
    intro tids
    induction tids with
    | nil => exact fun _ hacc => hacc
    | cons tid rest ih =>
        intro acc hacc
        refine ih _ ?_
        rw [pause_one]
        split
        · exact hacc
        · split_ifs
          · exact hacc
          · exact hpause _ _ hacc
          · exact hacc
  exact hloop _ _ h

theorem ordered_erase (tid : String) (t : Task O) (h : Ordered c) (ht : t.state ≠ .QUEUED) :
    Ordered { c.put tid t with order := c.order.erase tid } where
  queued := fun x => by
    have hmem : x ∈ c.order.erase tid ↔ x ≠ tid ∧ x ∈ c.order := h.nodup.mem_erase_iff
    have hs : state_of { c.put tid t with order := c.order.erase tid } x =
        (c.put tid t).state_of x := rfl
    rw [hs, state_of_put, hmem, h.queued x]
    by_cases hx : x = tid <;> simp [hx, ht]
  nodup := h.nodup.erase tid
  sorted := by
    refine (h.sorted.sublist List.erase_sublist).imp_of_mem (fun {a b} ha hb hab => ?_)
    have hne : ∀ y ∈ c.order.erase tid, y ≠ tid := fun y hy => (h.nodup.mem_erase_iff.mp hy).1
    have hp : ∀ y, priority_of { c.put tid t with order := c.order.erase tid } y =
        (c.put tid t).priority_of y := fun _ => rfl
    rw [hp, hp, priority_of_put, priority_of_put, if_neg (hne a ha), if_neg (hne b hb)]
    exact hab
  plain := fun x t' hx hs => by
    have hx : (c.put tid t).tasks.get x = some t' := hx
    rw [get_put] at hx
    split_ifs at hx
    · exact absurd (Option.some.inj hx ▸ hs) ht
    · exact h.plain x t' hx hs

theorem idle_node_some (h : Consistent c) (hidle : c.idle_node t = some n) :
    c.nodes.get n.node_id = some n ∧ n.task_id = none := by
  have hmem := List.mem_of_head? hidle
  have hn : n ∈ c.nodes.values ∧ n.busy = false := by
    rcases List.mem_append.mp hmem with hf | hi
    · simpa using List.mem_filter.mp (List.mem_of_mem_filter hf)
    · simpa using List.mem_filter.mp hi
  obtain ⟨a, ha⟩ := OrderedDict.mem_values.mp hn.1
  rw [h.keyed a n ha]
  exact ⟨ha, Option.isNone_iff_eq_none.mp (by simpa [Node.busy] using hn.2)⟩

theorem consistent_assigned (h : Consistent c) (hget : c.tasks.get tid = some t)
    (hq : t.state = .QUEUED) (hidle : c.idle_node t = some n) :
    Consistent (c.assigned tid t n) := by
  obtain ⟨hn, hfree⟩ := idle_node_some h hidle
  have hstate : c.state_of tid = some .QUEUED := by rw [state_of_get hget, hq]
  have hnone : c.holds n.node_id = none := by rw [holds, hn, Option.bind_some, hfree]
  have hholds : ∀ a, (c.assigned tid t n).holds a =
      if a = n.node_id then some tid else c.holds a := fun a => holds_putNode
  have hs : ∀ x, (c.assigned tid t n).state_of x =
      if x = tid then some .RUNNING else c.state_of x := fun x => state_of_put
  have hnode : ∀ x, (c.assigned tid t n).node_of x =
      if x = tid then some n.node_id else c.node_of x := fun x => node_of_put
  have hordered := ordered_erase tid { t with
    state := .RUNNING, node_id := some n.node_id, attempts := t.attempts + 1,
    tried_nodes := n.node_id :: t.tried_nodes, pause_reason := "" } h.toOrdered (by rintro ⟨⟩)
  exact {
    queued := hordered.queued
    nodup := hordered.nodup
    sorted := hordered.sorted
    plain := hordered.plain
    keyed := fun a m hm => keyed_set (n := { n with task_id := some tid }) h.keyed a m hm
    held := fun a y hy => by
      rw [hholds] at hy
      rw [hs, hnode]
      split_ifs at hy with ha
      · obtain rfl := Option.some.inj hy
        exact .inl ⟨if_pos rfl, by rw [if_pos rfl, ha]⟩
      · have hne : y ≠ tid := by
          rintro rfl
          rcases h.held a y hy with hr | hd
          · cases hr.1.symm.trans hstate
          · cases hd.symm.trans hstate
        simp only [if_neg hne]
        exact h.held a y hy
    running := fun y hy => by
      rw [hs] at hy
      rw [hnode]
      by_cases hne : y = tid
      · exact ⟨n.node_id, if_pos hne, by rw [hholds, if_pos rfl, hne]⟩
      · rw [if_neg hne] at hy ⊢
        obtain ⟨a, hrun, ha⟩ := h.running y hy
        refine ⟨a, hrun, ?_⟩
        rw [hholds, if_neg, ha]
        rintro rfl
        cases ha.symm.trans hnone }

section

variable (hsend : ∀ c nid m, Consistent c → Consistent (send c nid m))
include hsend

theorem consistent_pause {reason : String} (h : Consistent c) :
    Consistent (c.pause_task send tid reason).2 := by
  rw [pause_task]
  cases hget : c.tasks.get tid with
  | none => exact h
  | some t =>
      simp only
      cases hs : t.state with
      | DONE => exact h
      | FAILED => exact h
      | PAUSED =>
          exact consistent_detail h hget hs.symm rfl rfl nofun
      | QUEUED =>
          have hstate : c.state_of tid = some .QUEUED := by rw [state_of_get hget, hs]
          have hordered := ordered_erase tid { t with state := .PAUSED, pause_reason := reason }
            h.toOrdered nofun
          have hne : ∀ y, c.state_of y = some .RUNNING ∨ c.state_of y = some .DONE → y ≠ tid := by
            rintro y hy rfl
            rcases hy with hy | hy <;> exact nomatch hy.symm.trans hstate
          exact {
            toOrdered := hordered
            keyed := h.keyed
            held := fun a y hy => by
              have hy : c.holds a = some y := hy
              have hold := h.held a y hy
              have hyt : y ≠ tid := hne y (hold.imp_left And.left)
              change (c.put tid _).state_of y = _ ∧ (c.put tid _).node_of y = _ ∨
                (c.put tid _).state_of y = _
              rw [state_of_put, node_of_put, if_neg hyt, if_neg hyt]
              exact hold
            running := fun y hy => by
              change (c.put tid _).state_of y = _ at hy
              rw [state_of_put] at hy
              split_ifs at hy with hyt
              · cases hy
              · change ∃ a, (c.put tid _).node_of y = some a ∧ c.holds a = some y
                rw [node_of_put, if_neg hyt]
                exact h.running y hy }
      | RUNNING =>
          simp only
          cases hnode : t.node_id with
          | none => exact h
          | some nid =>
              exact hsend _ _ _ (consistent_detail h hget hs.symm hnode.symm rfl nofun)

theorem consistent_pause_below {min_priority : ℤ} {reason : String} (h : Consistent c) :
    Consistent (c.pause_below_priority send min_priority reason).2 :=
  pause_below_rule (fun _ _ hc => consistent_pause hsend hc) h

theorem consistent_stop (h : Consistent c) : Consistent (c.stop_task send tid).2 := by
  rw [stop_task]
  split
  · exact h
  · split_ifs
    · exact h
    · split
      · exact h
      · exact hsend _ _ _ h

theorem consistent_pump (h : Consistent c) : Consistent (c.pump send).2 :=
  pump_rule (fun _ _ _ _ hc hget hq _ hidle =>
    hsend _ _ _ (consistent_assigned hc hget hq hidle)) h

end

end

/-! ## What runs and what has been tried -/

/-- The tasks that run. -/
def running_ids (c : Coordinator W O) : List String :=
  c.tasks.keys.filter (fun x => c.state_of x = some .RUNNING)

theorem running_count_eq : c.running_count = c.running_ids.length := by
  rw [running_ids, ← List.countP_eq_length_filter, running_count, OrderedDict.values, OrderedDict.keys,
    List.countP_map, List.countP_map]
  refine List.countP_congr (fun e he => ?_)
  have hget : c.tasks.get e.1 = some e.2 := OrderedDict.get_eq_some_iff.mpr he
  simp [state_of_get hget]

theorem mem_running_ids : x ∈ c.running_ids ↔ c.state_of x = some .RUNNING := by
  rw [running_ids, List.mem_filter, decide_eq_true_iff]
  refine and_iff_right_of_imp (fun h => ?_)
  obtain ⟨t, hget, -⟩ := get_of_state h
  exact OrderedDict.mem_keys.mpr ⟨t, hget⟩

theorem running_count_le {l : List String}
    (h : ∀ x, c.state_of x = some .RUNNING → x ∈ l) : c.running_count ≤ l.length := by
  rw [running_count_eq]
  have hnd : c.running_ids.Nodup := (OrderedDict.nodup_keys c.tasks).filter _
  exact (List.subperm_of_subset hnd (fun x hx => h x (mem_running_ids.mp hx))).length_le

theorem running_count_assigned : (c.assigned tid t n).running_count ≤ c.running_count + 1 := by
  have hlen : (c.assigned tid t n).running_count ≤ (tid :: c.running_ids).length :=
    running_count_le (fun x hx => by
    have hs : (c.assigned tid t n).state_of x = if x = tid then some .RUNNING else c.state_of x :=
      state_of_put
    rw [hs] at hx
    split_ifs at hx with hxt
    · exact hxt ▸ List.mem_cons_self
    · exact List.mem_cons_of_mem _ (mem_running_ids.mpr hx))
  rw [List.length_cons] at hlen
  rw [running_count_eq (c := c)]
  exact hlen

/-- From `c` to `c'` no task is lost, starts to run or uses up an attempt.  One
that is queued again has attempts left or is among the `resumed`. -/
structure Idles (resumed : List String) (c c' : Coordinator W O) : Prop where
  max_concurrent : c'.max_concurrent = c.max_concurrent
  max_attempts : c'.max_attempts = c.max_attempts
  kept : ∀ x t, c.tasks.get x = some t → ∃ t', c'.tasks.get x = some t'
  tasks : ∀ x t', c'.tasks.get x = some t' →
    (c.tasks.get x = none ∧ t'.attempts = 0 ∧ t'.state ≠ .RUNNING) ∨
      ∃ t, c.tasks.get x = some t ∧ t'.attempts = t.attempts ∧
        (t'.state = .RUNNING → t.state = .RUNNING) ∧
        (t'.state = .QUEUED →
          t.state = .QUEUED ∨ (t.attempts : ℤ) < c.max_attempts ∨ x ∈ resumed)

variable {resumed : List String}

theorem Idles.of_tasks (hc : c'.max_concurrent = c.max_concurrent)
    (ha : c'.max_attempts = c.max_attempts) (ht : c'.tasks = c.tasks) : Idles resumed c c' where
  max_concurrent := hc
  max_attempts := ha
  kept := fun _ t hx => ⟨t, ht ▸ hx⟩
  tasks := fun _ t hx => .inr ⟨t, ht ▸ hx, rfl, id, .inl⟩

theorem Idles.refl (c : Coordinator W O) : Idles resumed c c := .of_tasks rfl rfl rfl

theorem Idles.trans (h : Idles resumed c c') (h' : Idles resumed c' c'') : Idles resumed c c'' where
  max_concurrent := h'.max_concurrent.trans h.max_concurrent
  max_attempts := h'.max_attempts.trans h.max_attempts
  kept := fun x t hx => by
    obtain ⟨t', ht'⟩ := h.kept x t hx
    exact h'.kept x t' ht'
  tasks := fun x t'' hx => by
    rcases h'.tasks x t'' hx with ⟨hnone, hnew⟩ | ⟨t', ht', hattempts, hrun, hq⟩
    · refine .inl ⟨?_, hnew⟩
      cases hget : c.tasks.get x with
      | none => rfl
      | some t =>
          obtain ⟨t', ht'⟩ := h.kept x t hget
          exact nomatch hnone.symm.trans ht'
    · rcases h.tasks x t' ht' with ⟨hnone, hzero, hq'⟩ | ⟨t, ht, hattempts', hrun', hq''⟩
      · exact .inl ⟨hnone, hattempts.trans hzero, fun hs => hq' (hrun hs)⟩
      · refine .inr ⟨t, ht, hattempts.trans hattempts', fun hs => hrun' (hrun hs), fun hs => ?_⟩
        rcases hq hs with hs' | hlt | hmem
        · exact hq'' hs'
        · exact .inr (.inl (by rwa [← hattempts', ← h.max_attempts]))
        · exact .inr (.inr hmem)

/-- One task changes. -/
theorem idles_put {t' : Task O} (hget : c.tasks.get tid = some t) (ha : t'.attempts = t.attempts)
    (hrun : t'.state = .RUNNING → t.state = .RUNNING)
    (hq : t'.state = .QUEUED →
      t.state = .QUEUED ∨ (t.attempts : ℤ) < c.max_attempts ∨ tid ∈ resumed) :
    Idles resumed c (c.put tid t') where
  max_concurrent := rfl
  max_attempts := rfl
  kept := fun x u hx => by
    rw [get_put]
    split_ifs
    · exact ⟨t', rfl⟩
    · exact ⟨u, hx⟩
  tasks := fun x u hx => by
    rw [get_put] at hx
    split_ifs at hx with hxt
    · subst hxt
      obtain rfl := Option.some.inj hx
      exact .inr ⟨t, hget, ha, hrun, hq⟩
    · exact .inr ⟨u, hx, rfl, id, .inl⟩

theorem idles_enqueue : Idles resumed c (c.enqueue tid) := by
  refine .of_tasks ?_ ?_ tasks_enqueue
  · rw [enqueue]
    split_ifs <;> rfl
  · rw [enqueue]
    split_ifs <;> rfl

/-- One task changes and is queued. -/
theorem idles_put_enqueue {t' : Task O} (hget : c.tasks.get tid = some t)
    (ha : t'.attempts = t.attempts) (hrun : t'.state ≠ .RUNNING)
    (hq : t.state = .QUEUED ∨ (t.attempts : ℤ) < c.max_attempts ∨ tid ∈ resumed) :
    Idles resumed c ((c.put tid t').enqueue tid) :=
  (idles_put hget ha (fun hs => absurd hs hrun) (fun _ => hq)).trans idles_enqueue

/-- A task is new. -/
theorem idles_new (hget : c.tasks.get tid = none) (ha : t.attempts = 0)
    (hrun : t.state ≠ .RUNNING) : Idles resumed c ((c.put tid t).enqueue tid) := by
  refine Idles.trans ?_ idles_enqueue
  exact {
    max_concurrent := rfl
    max_attempts := rfl
    kept := fun x u hx => by
      rw [get_put]
      split_ifs
      · exact ⟨_, rfl⟩
      · exact ⟨u, hx⟩
    tasks := fun x u hx => by
      rw [get_put] at hx
      split_ifs at hx with hxt
      · obtain rfl := Option.some.inj hx
        exact .inl ⟨hxt ▸ hget, ha, hrun⟩
      · exact .inr ⟨u, hx, rfl, id, .inl⟩ }

theorem idles_requeue {reason : String} : Idles resumed c (c.requeue tid reason) := by
  rw [requeue]
  cases hget : c.tasks.get tid with
  | none => exact .refl c
  | some t =>
      simp only
      split_ifs with hend hmax
      · exact .refl c
      · exact idles_put hget rfl (by rintro ⟨⟩) (by rintro ⟨⟩)
      · exact idles_put_enqueue hget rfl (by rintro ⟨⟩) (.inr (.inl (not_le.mp hmax)))

theorem idles_node_lost : Idles resumed c (c.on_node_lost nid) := by
  rw [on_node_lost]
  have hpop : Idles resumed c { c with nodes := c.nodes.pop nid } := .of_tasks rfl rfl rfl
  split
  · exact hpop.trans idles_requeue
  · exact hpop

theorem idles_hello {hello : Hello} : Idles resumed c (c.on_hello hello) := by
  have hnode : ∀ (d : Coordinator W O) (n : Node), Idles resumed d (d.putNode n) :=
    fun _ _ => .of_tasks rfl rfl rfl
  rw [on_hello]
  split
  · exact idles_requeue.trans (hnode _ _)
  · exact hnode _ _

theorem idles_status {s : Status} : Idles resumed c (c.on_status s) := by
  rw [on_status]
  split
  · exact .refl c
  · split
    · exact .refl c
    · rename_i tid _
      split_ifs
      · exact .refl c
      · cases hget : c.tasks.get tid with
        | none => exact .refl c
        | some t => exact idles_put hget rfl id .inl

theorem idles_submit {task : String} {options : O} {task_id : Option String} {priority : ℤ} :
    Idles resumed c (c.submit task options task_id priority).2 := by
  have hid : ∀ k, Idles resumed c { c with next_id := k } := fun _ => .of_tasks rfl rfl rfl
  rw [submit]
  simp only
  split
  · exact hid _
  · rename_i hnone
    exact Idles.trans (hid _) (idles_new hnone rfl (by rintro ⟨⟩))

theorem idles_resume (hmem : (c.resume_task tid).1 = true → tid ∈ resumed) :
    Idles resumed c (c.resume_task tid).2 := by
  rw [resume_task] at hmem ⊢
  cases hget : c.tasks.get tid with
  | none => exact .refl c
  | some t =>
      rw [hget] at hmem
      simp only at hmem ⊢
      split_ifs with hs
      · exact .refl c
      · rw [if_neg hs] at hmem
        exact idles_put_enqueue hget rfl (by rintro ⟨⟩) (.inr (.inr (hmem rfl)))

theorem idles_release {nid tid : String} : Idles resumed c (c.release nid tid) := by
  rw [release]
  split
  · exact .refl c
  · split_ifs
    · exact .of_tasks rfl rfl rfl
    · exact .refl c

theorem idles_conclude {r : Result} : Idles resumed c (c.conclude r) := by
  rw [conclude]
  cases hget : c.tasks.get r.task_id with
  | none => exact .refl _
  | some t =>
      simp only
      split_ifs with hend hpause hcode hmax
      · exact .refl _
      · exact idles_put hget rfl (by rintro ⟨⟩) (by rintro ⟨⟩)
      · exact idles_put hget rfl (by rintro ⟨⟩) (by rintro ⟨⟩)
      · exact idles_put hget rfl (by rintro ⟨⟩) (by rintro ⟨⟩)
      · refine Idles.trans ?_ idles_requeue
        exact idles_put hget rfl id .inl

theorem idles_result {r : Result} : Idles resumed c (c.on_result r) :=
  idles_release.trans idles_conclude

section

variable {send : Coordinator W O → String → Message O → Coordinator W O}
variable (hsend : ∀ c nid m, Idles (W := W) (O := O) [] c (send c nid m))
include hsend

theorem idles_pause {reason : String} : Idles [] c (c.pause_task send tid reason).2 := by
  rw [pause_task]
  cases hget : c.tasks.get tid with
  | none => exact .refl c
  | some t =>
      simp only
      cases hs : t.state with
      | DONE => exact .refl c
      | FAILED => exact .refl c
      | PAUSED => exact idles_put hget rfl nofun nofun
      | QUEUED =>
          have hput : Idles [] c (c.put tid { t with state := .PAUSED, pause_reason := reason }) :=
            idles_put hget rfl nofun nofun
          exact hput.trans (.of_tasks rfl rfl rfl)
      | RUNNING =>
          simp only
          cases t.node_id with
          | none => exact .refl c
          | some nid =>
              refine Idles.trans ?_ (hsend _ _ _)
              exact idles_put hget rfl (fun _ => hs) nofun

theorem idles_pause_below {min_priority : ℤ} {reason : String} :
    Idles [] c (c.pause_below_priority send min_priority reason).2 :=
  pause_below_rule (P := fun d => Idles [] c d)
    (fun _ _ h => h.trans (idles_pause hsend)) (.refl c)

theorem idles_stop : Idles [] c (c.stop_task send tid).2 := by
  rw [stop_task]
  split
  · exact .refl c
  · split_ifs
    · exact .refl c
    · split
      · exact .refl c
      · exact hsend _ _ _

end

/-- The cap on what runs at once. -/
def Capped (c : Coordinator W O) : Prop :=
  ∀ cap, c.max_concurrent = some cap → (c.running_count : ℤ) ≤ max cap 0

/-- A task that has not been resumed has been tried `max_attempts` times at
most, or once. -/
def Tried (resumed : List String) (c : Coordinator W O) : Prop :=
  ∀ x t, c.tasks.get x = some t → x ∉ resumed →
    (t.attempts : ℤ) ≤ max c.max_attempts 1 ∧
      (t.state = .QUEUED → (t.attempts : ℤ) < max c.max_attempts 1)

theorem Idles.running (h : Idles resumed c c') (hs : c'.state_of x = some .RUNNING) :
    c.state_of x = some .RUNNING := by
  obtain ⟨t', hget, ht'⟩ := get_of_state hs
  rcases h.tasks x t' hget with ⟨-, -, hne⟩ | ⟨t, ht, -, hrun, -⟩
  · exact absurd ht' hne
  · rw [state_of_get ht, hrun ht']

theorem Idles.capped (h : Idles resumed c c') (hc : Capped c) : Capped c' := by
  intro cap hcap
  have hle : c'.running_count ≤ c.running_count := by
    rw [running_count_eq (c := c)]
    exact running_count_le (fun x hx => mem_running_ids.mpr (h.running hx))
  have := hc cap (h.max_concurrent ▸ hcap)
  omega

theorem Idles.tried {before : List String} (h : Idles resumed c c') (hc : Tried before c) :
    Tried (before ++ resumed) c' := by
  intro x t' hx hmem
  rw [List.mem_append, not_or] at hmem
  rw [h.max_attempts]
  rcases h.tasks x t' hx with ⟨-, hzero, -⟩ | ⟨t, ht, hattempts, -, hq⟩
  · rw [hzero]
    exact ⟨by simp, fun _ => by simp⟩
  · obtain ⟨hle, hlt⟩ := hc x t ht hmem.1
    rw [hattempts]
    refine ⟨hle, fun hs => ?_⟩
    rcases hq hs with hs' | hlt' | hmem'
    · exact hlt hs'
    · exact lt_max_of_lt_left hlt'
    · exact absurd hmem' hmem.2

theorem capped_assigned (h : Capped c) (hcap : c.at_cap = false) : Capped (c.assigned tid t n) := by
  intro cap hmax
  have hmax : c.max_concurrent = some cap := hmax
  have hlt : ¬ cap ≤ (c.running_count : ℤ) := by simpa [at_cap, hmax] using hcap
  have hle : (c.assigned tid t n).running_count ≤ c.running_count + 1 := running_count_assigned
  have := h cap hmax
  omega

theorem tried_assigned (h : Tried resumed c) (hget : c.tasks.get tid = some t)
    (hq : t.state = .QUEUED) : Tried resumed (c.assigned tid t n) := by
  intro x u hx hmem
  have hput : (if x = tid then some _ else c.tasks.get x) = some u := get_put.symm.trans hx
  split_ifs at hput with hxt
  · subst hxt
    obtain rfl := Option.some.inj hput
    have hlt := (h x t hget hmem).2 hq
    refine ⟨?_, (by rintro ⟨⟩)⟩
    push_cast
    exact hlt
  · exact h x u hput hmem

/-! ## Runs -/

/-- A call of one of the operations. -/
inductive Call (O : Type) where
  | submit (task : String) (options : O) (task_id : Option String) (priority : ℤ)
  | pause_task (task_id reason : String)
  | pause_below_priority (min_priority : ℤ) (reason : String)
  | resume_task (task_id : String)
  | stop_task (task_id : String)
  | on_hello (hello : Hello)
  | on_status (status : Status)
  | on_result (result : Result)
  | on_node_lost (node_id : String)
  | pump

/-- What has been sent, oldest first. -/
abbrev Wire (O : Type) := List (String × Message O)

/-- A `send` that always succeeds. -/
def deliver (c : Coordinator (Wire O) O) (nid : String) (m : Message O) : Coordinator (Wire O) O :=
  { c with world := c.world ++ [(nid, m)] }

def call (c : Coordinator (Wire O) O) : Call O → Coordinator (Wire O) O
  | .submit task options task_id priority => (c.submit task options task_id priority).2
  | .pause_task tid reason => (c.pause_task deliver tid reason).2
  | .pause_below_priority p reason => (c.pause_below_priority deliver p reason).2
  | .resume_task tid => (c.resume_task tid).2
  | .stop_task tid => (c.stop_task deliver tid).2
  | .on_hello h => c.on_hello h
  | .on_status s => c.on_status s
  | .on_result r => c.on_result r
  | .on_node_lost nid => c.on_node_lost nid
  | .pump => (c.pump deliver).2

/-- The task a call resumes. -/
def resumes (c : Coordinator (Wire O) O) : Call O → List String
  | .resume_task tid => if (c.resume_task tid).1 then [tid] else []
  | _ => []

def calls (c : Coordinator (Wire O) O) (es : List (Call O)) : Coordinator (Wire O) O :=
  es.foldl call c

def resumedBy (c : Coordinator (Wire O) O) : List (Call O) → List String
  | [] => []
  | e :: es => resumes c e ++ resumedBy (call c e) es

def Meets (c : Coordinator (Wire O) O) : Call O → Prop
  | .on_result r => Timely c r
  | _ => True

instance (c : Coordinator (Wire O) O) (e : Call O) : Decidable (Meets c e) :=
  match e with
  | .on_result r => inferInstanceAs (Decidable (Timely c r))
  | .submit .. | .pause_task .. | .pause_below_priority .. | .resume_task _ | .stop_task _
  | .on_hello _ | .on_status _ | .on_node_lost _ | .pump => isTrue trivial

/-- Every result of the run keeps the indexes together. -/
def AllMeet (c : Coordinator (Wire O) O) : List (Call O) → Prop
  | [] => True
  | e :: es => Meets c e ∧ AllMeet (call c e) es

def decideAllMeet (c : Coordinator (Wire O) O) : (es : List (Call O)) → Decidable (AllMeet c es)
  | [] => isTrue trivial
  | e :: es =>
      have := decideAllMeet (call c e) es
      inferInstanceAs (Decidable (Meets c e ∧ AllMeet (call c e) es))

instance (c : Coordinator (Wire O) O) (es : List (Call O)) : Decidable (AllMeet c es) :=
  decideAllMeet c es

/-- A coordinator with nothing to do. -/
def start (max_concurrent : Option ℤ) (max_attempts : ℤ) : Coordinator (Wire O) O :=
  { max_concurrent, max_attempts, world := [] }

structure Sound (resumed : List String) (c : Coordinator W O) : Prop where
  consistent : Consistent c
  capped : Capped c
  tried : Tried resumed c

theorem Sound.idles {before resumed : List String} (h : Sound before c)
    (hc : Consistent c') (hi : Idles resumed c c') : Sound (before ++ resumed) c' :=
  ⟨hc, hi.capped h.capped, hi.tried h.tried⟩

theorem sound_pump {send : Coordinator W O → String → Message O → Coordinator W O}
    (hc : ∀ c nid m, Consistent c → Consistent (send c nid m))
    (hi : ∀ c nid m, Idles (W := W) (O := O) [] c (send c nid m))
    (h : Sound resumed c) : Sound resumed (c.pump send).2 := by
  refine pump_rule (fun d tid t n hd hget hq hcap hidle => ?_) h
  have hassigned : Sound resumed (d.assigned tid t n) :=
    ⟨consistent_assigned hd.consistent hget hq hidle, capped_assigned hd.capped hcap,
      tried_assigned hd.tried hget hq⟩
  have hsent := hassigned.idles (hc _ _ _ hassigned.consistent)
    (hi _ n.node_id (.assign tid t.task t.options))
  rwa [List.append_nil] at hsent

section

variable {c : Coordinator (Wire O) O}

theorem consistent_deliver (c : Coordinator (Wire O) O) (nid : String) (m : Message O)
    (h : Consistent c) : Consistent (deliver c nid m) where
  queued := h.queued
  nodup := h.nodup
  sorted := h.sorted
  plain := h.plain
  keyed := h.keyed
  held := h.held
  running := h.running

theorem idles_deliver (c : Coordinator (Wire O) O) (nid : String) (m : Message O) :
    Idles [] c (deliver c nid m) := .of_tasks rfl rfl rfl

theorem sound_call {e : Call O} (h : Sound resumed c) (hmeets : Meets c e) :
    Sound (resumed ++ resumes c e) (call c e) := by
  have hc := h.consistent
  cases e with
  | submit task options task_id priority => exact h.idles (consistent_submit hc) idles_submit
  | pause_task tid reason =>
      exact h.idles (consistent_pause consistent_deliver hc) (idles_pause idles_deliver)
  | pause_below_priority p reason =>
      exact h.idles (consistent_pause_below consistent_deliver hc) (idles_pause_below idles_deliver)
  | resume_task tid =>
      refine h.idles (consistent_resume hc) (idles_resume (fun hres => ?_))
      rw [resumes, if_pos hres]
      exact List.mem_singleton_self tid
  | stop_task tid =>
      exact h.idles (consistent_stop consistent_deliver hc) (idles_stop idles_deliver)
  | on_hello hello => exact h.idles (consistent_hello hc) idles_hello
  | on_status s => exact h.idles (consistent_status hc) idles_status
  | on_result r => exact h.idles (consistent_result hc hmeets) idles_result
  | on_node_lost nid => exact h.idles (consistent_node_lost hc) idles_node_lost
  | pump =>
      have hnone : resumes c .pump = [] := rfl
      rw [hnone, List.append_nil]
      exact sound_pump consistent_deliver idles_deliver h

theorem sound_calls : ∀ (es : List (Call O)) {c : Coordinator (Wire O) O} {resumed : List String},
    Sound resumed c → AllMeet c es → Sound (resumed ++ resumedBy c es) (calls c es)
  | [], c, resumed, h, _ => by
      rw [resumedBy, List.append_nil]
      exact h
  | e :: es, c, resumed, h, hmeets => by
      rw [resumedBy, ← List.append_assoc]
      exact sound_calls es (sound_call h hmeets.1) hmeets.2

theorem sound_start (max_concurrent : Option ℤ) (max_attempts : ℤ) :
    Sound [] (start (O := O) max_concurrent max_attempts) where
  consistent := {
    queued := fun _ => ⟨nofun, nofun⟩
    nodup := List.nodup_nil
    sorted := List.Pairwise.nil
    plain := nofun
    keyed := nofun
    held := nofun
    running := nofun }
  capped := fun cap _ => by
    have hzero : (start (O := O) max_concurrent max_attempts).running_count = 0 := rfl
    rw [hzero]
    exact le_max_right cap 0
  tried := nofun

end

/-- The three indexes as their readers see them, and the bounds on what they
let happen. -/
structure Scheduled (resumed : List String) (c : Coordinator W O) : Prop where
  runs : ∀ tid nid, c.state_of tid = some .RUNNING ∧ c.node_of tid = some nid ↔
    c.holds nid = some tid ∧ c.state_of tid ≠ some .DONE
  placed : ∀ tid, c.state_of tid = some .RUNNING → ∃ nid, c.node_of tid = some nid
  alone : ∀ tid, c.state_of tid = some .RUNNING →
    ∀ a b, c.holds a = some tid → c.holds b = some tid → a = b
  busy : ∀ nid tid, c.holds nid = some tid →
    c.state_of tid = some .RUNNING ∨ c.state_of tid = some .DONE
  ordered : Ordered c
  capped : Capped c
  tried : Tried resumed c

theorem Sound.toScheduled (h : Sound resumed c) : Scheduled resumed c where
  runs := fun tid nid => by
    constructor
    · rintro ⟨hrun, hnode⟩
      obtain ⟨a, ha, hold⟩ := h.consistent.running tid hrun
      obtain rfl := Option.some.inj (hnode.symm.trans ha)
      exact ⟨hold, by rw [hrun]; nofun⟩
    · rintro ⟨hold, hdone⟩
      exact (h.consistent.held nid tid hold).resolve_right hdone
  placed := fun tid hrun => by
    obtain ⟨nid, hnode, -⟩ := h.consistent.running tid hrun
    exact ⟨nid, hnode⟩
  alone := fun tid hrun a b ha hb => by
    have hnode : ∀ nid, c.holds nid = some tid → c.node_of tid = some nid := by
      intro nid hold
      rcases h.consistent.held nid tid hold with hr | hd
      · exact hr.2
      · exact nomatch hrun.symm.trans hd
    exact Option.some.inj ((hnode a ha).symm.trans (hnode b hb))
  busy := fun nid tid hold => (h.consistent.held nid tid hold).imp_left And.left
  ordered := h.consistent.toOrdered
  capped := h.capped
  tried := h.tried

/-- In every run whose results are timely the three indexes agree, the cap is
kept, and no task is tried too often without having been resumed. -/
theorem scheduled (max_concurrent : Option ℤ) (max_attempts : ℤ) (es : List (Call O))
    (hmeets : AllMeet (start max_concurrent max_attempts) es) :
    Scheduled (resumedBy (start max_concurrent max_attempts) es)
      (calls (start max_concurrent max_attempts) es) := by
  have h := sound_calls es (sound_start max_concurrent max_attempts) hmeets
  rw [List.nil_append] at h
  exact h.toScheduled

/-- A task is dispatched, its node is lost, and another node gets it. -/
def handedOver : List (Call Unit) :=
  [.on_hello { node_id := "n1" }, .on_hello { node_id := "n2" }, .submit "x" () none 0, .pump,
    .on_node_lost "n1", .pump]

/-- The first node's late answer. -/
def lateAnswer : List (Call Unit) :=
  handedOver ++ [.on_result { node_id := "n1", task_id := "t1", code := 0 }]

theorem scheduled_lateAnswer :
    Scheduled (resumedBy (start none 2) lateAnswer) (calls (start none 2) lateAnswer) :=
  scheduled none 2 lateAnswer (by decide +kernel)

/-- The late answer wins, and the second node still holds the task. -/
theorem held_lateAnswer :
    (calls (start none 2) handedOver).holds "n2" = some "t1" ∧
      (calls (start none 2) lateAnswer).holds "n2" = some "t1" ∧
      (calls (start none 2) lateAnswer).state_of "t1" = some .DONE := by
  decide +kernel

end Secdogie.Fleet.Coordinator
