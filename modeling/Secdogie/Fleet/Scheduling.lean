/-
# `Secdogie.Fleet.Scheduling` — the three indexes agree

`Consistent` relates the tasks, the nodes and the dispatch order of a
coordinator.  An operation takes a task from the node that holds it before it
says what becomes of the task; `Loose` is the state in between, and
`consistent_enqueue` and `consistent_finish` are the two ways out of it.
-/
import Secdogie.Fleet.Coordinator

namespace Secdogie.Fleet.Coordinator

variable {W O : Type} {c : Coordinator W O} {tid x nid : String} {t : Task O} {n : Node}

/-! ## Views of the indexes -/

def state_of (c : Coordinator W O) (tid : String) : Option TaskState :=
  (c.tasks.get tid).map Task.state

def node_of (c : Coordinator W O) (tid : String) : Option String :=
  (c.tasks.get tid).bind Task.node_id

/-- The assignment a node holds. -/
def holds (c : Coordinator W O) (nid : String) : Option String :=
  (c.nodes.get nid).bind Node.task_id

@[simp] theorem get_put : (c.put tid t).tasks.get x = if x = tid then some t else c.tasks.get x := by
  simp [put]

@[simp] theorem state_of_put :
    (c.put tid t).state_of x = if x = tid then some t.state else c.state_of x := by
  simp only [state_of, get_put]
  split_ifs <;> rfl

@[simp] theorem node_of_put :
    (c.put tid t).node_of x = if x = tid then t.node_id else c.node_of x := by
  simp only [node_of, get_put]
  split_ifs <;> rfl

@[simp] theorem priority_of_put :
    (c.put tid t).priority_of x = if x = tid then t.priority else c.priority_of x := by
  simp only [priority_of, get_put]
  split_ifs <;> rfl

@[simp] theorem holds_put : (c.put tid t).holds x = c.holds x := rfl

@[simp] theorem order_put : (c.put tid t).order = c.order := rfl

@[simp] theorem nodes_put : (c.put tid t).nodes = c.nodes := rfl

@[simp] theorem max_attempts_put : (c.put tid t).max_attempts = c.max_attempts := rfl

@[simp] theorem holds_putNode :
    (c.putNode n).holds x = if x = n.node_id then n.task_id else c.holds x := by
  simp only [holds, putNode, OrderedDict.get_set]
  split_ifs <;> rfl

@[simp] theorem state_of_putNode : (c.putNode n).state_of x = c.state_of x := rfl

@[simp] theorem node_of_putNode : (c.putNode n).node_of x = c.node_of x := rfl

@[simp] theorem order_putNode : (c.putNode n).order = c.order := rfl

@[simp] theorem tasks_putNode : (c.putNode n).tasks = c.tasks := rfl

@[simp] theorem tasks_enqueue : (c.enqueue tid).tasks = c.tasks := by
  rw [enqueue]
  split_ifs <;> rfl

@[simp] theorem nodes_enqueue : (c.enqueue tid).nodes = c.nodes := by
  rw [enqueue]
  split_ifs <;> rfl

@[simp] theorem state_of_enqueue : (c.enqueue tid).state_of x = c.state_of x := by
  rw [state_of, tasks_enqueue, state_of]

@[simp] theorem node_of_enqueue : (c.enqueue tid).node_of x = c.node_of x := by
  rw [node_of, tasks_enqueue, node_of]

@[simp] theorem priority_of_enqueue : (c.enqueue tid).priority_of x = c.priority_of x := by
  rw [priority_of, tasks_enqueue, priority_of]

@[simp] theorem holds_enqueue : (c.enqueue tid).holds x = c.holds x := by
  rw [holds, nodes_enqueue, holds]

theorem state_of_get (h : c.tasks.get tid = some t) : c.state_of tid = some t.state := by
  rw [state_of, h, Option.map_some]

theorem node_of_get (h : c.tasks.get tid = some t) : c.node_of tid = t.node_id := by
  rw [node_of, h, Option.bind_some]

theorem priority_of_get (h : c.tasks.get tid = some t) : c.priority_of tid = t.priority := by
  rw [priority_of, h]

theorem get_of_state {s : TaskState} (h : c.state_of tid = some s) :
    ∃ t, c.tasks.get tid = some t ∧ t.state = s :=
  Option.map_eq_some_iff.mp h

/-! ## The dispatch order -/

theorem insert_at_perm (prio : String → ℤ) (tid : String) :
    ∀ l : List String, (insert_at prio tid l).Perm (tid :: l)
  | [] => .refl _
  | e :: es => by
      rw [insert_at]
      split_ifs
      · exact .refl _
      · exact ((insert_at_perm prio tid es).cons e).trans (.swap tid e es)

theorem insert_at_sorted (prio : String → ℤ) (tid : String) : ∀ l : List String,
    l.Pairwise (fun a b => prio b ≤ prio a) →
      (insert_at prio tid l).Pairwise (fun a b => prio b ≤ prio a)
  | [], _ => List.pairwise_singleton _ _
  | e :: es, h => by
      obtain ⟨he, hes⟩ := List.pairwise_cons.mp h
      rw [insert_at]
      split_ifs with hlt
      · refine List.pairwise_cons.mpr ⟨fun b hb => ?_, h⟩
        rcases List.mem_cons.mp hb with rfl | hb
        · exact hlt.le
        · exact (he b hb).trans hlt.le
      · refine List.pairwise_cons.mpr ⟨fun b hb => ?_, insert_at_sorted prio tid es hes⟩
        rcases List.mem_cons.mp ((insert_at_perm prio tid es).mem_iff.mp hb) with rfl | hb
        · exact not_lt.mp hlt
        · exact he b hb

theorem mem_enqueue : x ∈ (c.enqueue tid).order ↔ x = tid ∨ x ∈ c.order := by
  rw [enqueue]
  split_ifs with h
  · exact ⟨.inr, fun hx => hx.elim (· ▸ h) id⟩
  · rw [(insert_at_perm c.priority_of tid c.order).mem_iff, List.mem_cons]

theorem nodup_enqueue (h : c.order.Nodup) : (c.enqueue tid).order.Nodup := by
  rw [enqueue]
  split_ifs with hmem
  · exact h
  · exact (insert_at_perm c.priority_of tid c.order).nodup_iff.mpr (h.cons hmem)

theorem sorted_enqueue (h : c.order.Pairwise (fun a b => c.priority_of b ≤ c.priority_of a)) :
    (c.enqueue tid).order.Pairwise
      (fun a b => (c.enqueue tid).priority_of b ≤ (c.enqueue tid).priority_of a) := by
  simp only [priority_of_enqueue]
  rw [enqueue]
  split_ifs
  · exact h
  · exact insert_at_sorted c.priority_of tid c.order h

/-! ## The invariant -/

/-- The order holds exactly the queued tasks, each once, the highest priority
first, and no pause is pending for them. -/
structure Ordered (c : Coordinator W O) : Prop where
  queued : ∀ tid, tid ∈ c.order ↔ c.state_of tid = some .QUEUED
  nodup : c.order.Nodup
  sorted : c.order.Pairwise (fun a b => c.priority_of b ≤ c.priority_of a)
  plain : ∀ tid t, c.tasks.get tid = some t → t.state = .QUEUED → t.pause_reason = ""

/-- A node holds the task it runs, or one that another node finished first.  A
task runs on the node that holds it. -/
structure Consistent (c : Coordinator W O) : Prop extends Ordered c where
  keyed : ∀ nid n, c.nodes.get nid = some n → n.node_id = nid
  held : ∀ nid tid, c.holds nid = some tid →
    c.state_of tid = some .RUNNING ∧ c.node_of tid = some nid ∨ c.state_of tid = some .DONE
  running : ∀ tid, c.state_of tid = some .RUNNING →
    ∃ nid, c.node_of tid = some nid ∧ c.holds nid = some tid

/-- The invariant, but for one task that its node has let go of. -/
structure Loose (tid : String) (c : Coordinator W O) : Prop extends Ordered c where
  keyed : ∀ nid n, c.nodes.get nid = some n → n.node_id = nid
  held : ∀ nid x, c.holds nid = some x →
    x ≠ tid ∧ c.state_of x = some .RUNNING ∧ c.node_of x = some nid ∨ c.state_of x = some .DONE
  running : ∀ x, x ≠ tid → c.state_of x = some .RUNNING →
    ∃ nid, c.node_of x = some nid ∧ c.holds nid = some x

theorem Consistent.loose (h : Consistent c) (hrun : c.state_of tid ≠ some .RUNNING) :
    Loose tid c where
  toOrdered := h.toOrdered
  keyed := h.keyed
  held := fun nid x hx => (h.held nid x hx).imp_left
    (fun hr => ⟨fun heq => hrun (heq ▸ hr.1), hr⟩)
  running := fun x _ hx => h.running x hx

theorem Loose.consistent (h : Loose tid c) (hrun : c.state_of tid ≠ some .RUNNING) :
    Consistent c where
  toOrdered := h.toOrdered
  keyed := h.keyed
  held := fun nid x hx => (h.held nid x hx).imp_left And.right
  running := fun x hx => h.running x (fun heq => hrun (heq ▸ hx)) hx

/-- Letting go of the task a node holds. -/
theorem Consistent.let_go {nodes : OrderedDict String Node} (h : Consistent c)
    (hold : c.holds nid = some tid) (hkeyed : ∀ a n, nodes.get a = some n → n.node_id = a)
    (hnodes : ∀ a, (nodes.get a).bind Node.task_id = if a = nid then none else c.holds a) :
    Loose tid { c with nodes := nodes } where
  toOrdered := ⟨h.queued, h.nodup, h.sorted, h.plain⟩
  keyed := hkeyed
  held := fun a x hx => by
    have hx := (hnodes a).symm.trans hx
    split_ifs at hx with ha
    rcases h.held a x hx with hr | hd
    · refine .inl ⟨fun heq => ?_, hr⟩
      rcases h.held nid tid hold with hr' | hd'
      · exact ha (Option.some.inj ((heq ▸ hr.2).symm.trans hr'.2))
      · exact absurd (hr.1.symm.trans (heq ▸ hd')) (by simp)
    · exact .inr hd
  running := fun x hne hx => by
    obtain ⟨a, hnode, ha⟩ := h.running x hx
    refine ⟨a, hnode, (hnodes a).trans ?_⟩
    rw [if_neg, ha]
    rintro rfl
    exact hne (Option.some.inj (ha.symm.trans hold))

/-- A task no node holds, queued. -/
theorem consistent_enqueue (h : Loose tid c) (hdone : c.state_of tid ≠ some .DONE)
    (ht : t.state = .QUEUED) (hplain : t.pause_reason = "")
    (hprio : tid ∈ c.order → t.priority = c.priority_of tid) :
    Consistent ((c.put tid t).enqueue tid) where
  queued := fun x => by
    rw [mem_enqueue, order_put, h.queued x, state_of_enqueue, state_of_put, ht]
    by_cases hx : x = tid <;> simp [hx]
  nodup := nodup_enqueue h.nodup
  sorted := by
    refine sorted_enqueue ?_
    rw [order_put]
    refine h.sorted.imp_of_mem (fun {a b} ha hb hab => ?_)
    have heq : ∀ y ∈ c.order, (c.put tid t).priority_of y = c.priority_of y := by
      intro y hy
      rw [priority_of_put]
      split_ifs with hyt
      · subst hyt
        exact hprio hy
      · rfl
    rw [heq a ha, heq b hb]
    exact hab
  plain := fun x t' hx hs => by
    rw [tasks_enqueue, get_put] at hx
    split_ifs at hx
    · exact Option.some.inj hx ▸ hplain
    · exact h.plain x t' hx hs
  keyed := fun a n hn => by
    rw [nodes_enqueue] at hn
    exact h.keyed a n hn
  held := fun a x hx => by
    rw [holds_enqueue, holds_put] at hx
    simp only [state_of_enqueue, state_of_put, node_of_enqueue, node_of_put]
    rcases h.held a x hx with ⟨hne, hr⟩ | hd
    · simp only [if_neg hne]
      exact .inl hr
    · have hne : x ≠ tid := fun heq => hdone (heq ▸ hd)
      simp only [if_neg hne]
      exact .inr hd
  running := fun x hx => by
    simp only [state_of_enqueue, state_of_put, node_of_enqueue, node_of_put, holds_enqueue,
      holds_put] at hx ⊢
    by_cases hne : x = tid
    · rw [if_pos hne, ht] at hx
      cases hx
    · rw [if_neg hne] at hx ⊢
      exact h.running x hne hx

/-- A task no node holds, taken out of the dispatch. -/
theorem consistent_finish (h : Loose tid c) (hq : c.state_of tid ≠ some .QUEUED)
    (hdone : c.state_of tid = some .DONE → t.state = .DONE)
    (ht : t.state ≠ .QUEUED ∧ t.state ≠ .RUNNING) : Consistent (c.put tid t) where
  queued := fun x => by
    rw [order_put, h.queued x, state_of_put]
    by_cases hx : x = tid
    · subst hx
      simp [hq, ht.1]
    · rw [if_neg hx]
  nodup := h.nodup
  sorted := by
    rw [order_put]
    refine h.sorted.imp_of_mem (fun {a b} ha hb hab => ?_)
    have hne : ∀ y ∈ c.order, y ≠ tid := fun y hy heq => hq (heq ▸ (h.queued y).mp hy)
    rw [priority_of_put, priority_of_put, if_neg (hne a ha), if_neg (hne b hb)]
    exact hab
  plain := fun x t' hx hs => by
    rw [get_put] at hx
    split_ifs at hx
    · exact absurd (Option.some.inj hx ▸ hs) ht.1
    · exact h.plain x t' hx hs
  keyed := h.keyed
  held := fun a x hx => by
    rw [holds_put] at hx
    simp only [state_of_put, node_of_put]
    rcases h.held a x hx with ⟨hne, hr⟩ | hd
    · simp only [if_neg hne]
      exact .inl hr
    · refine .inr ?_
      split_ifs with heq
      · exact congrArg some (hdone (heq ▸ hd))
      · exact hd
  running := fun x hx => by
    simp only [state_of_put, node_of_put, holds_put] at hx ⊢
    by_cases hne : x = tid
    · rw [if_pos hne] at hx
      exact absurd (Option.some.inj hx) ht.2
    · rw [if_neg hne] at hx ⊢
      exact h.running x hne hx

/-- A change to a task that its state, its node and its place do not depend on. -/
theorem consistent_detail {t' : Task O} (h : Consistent c) (hget : c.tasks.get tid = some t)
    (hstate : t'.state = t.state) (hnode : t'.node_id = t.node_id)
    (hprio : t'.priority = t.priority) (hplain : t'.state = .QUEUED → t'.pause_reason = "") :
    Consistent (c.put tid t') := by
  have hs : ∀ x, (c.put tid t').state_of x = c.state_of x := by
    intro x
    rw [state_of_put]
    split_ifs with hx
    · rw [hx, state_of_get hget, hstate]
    · rfl
  have hn : ∀ x, (c.put tid t').node_of x = c.node_of x := by
    intro x
    rw [node_of_put]
    split_ifs with hx
    · rw [hx, node_of_get hget, hnode]
    · rfl
  have hp : ∀ x, (c.put tid t').priority_of x = c.priority_of x := by
    intro x
    rw [priority_of_put]
    split_ifs with hx
    · rw [hx, priority_of_get hget, hprio]
    · rfl
  exact {
    queued := fun x => by rw [order_put, hs, h.queued x]
    nodup := h.nodup
    sorted := by simpa only [order_put, hp] using h.sorted
    plain := fun x u hx hq => by
      rw [get_put] at hx
      split_ifs at hx
      · exact Option.some.inj hx ▸ hplain (Option.some.inj hx ▸ hq)
      · exact h.plain x u hx hq
    keyed := h.keyed
    held := fun a x hx => by
      rw [hs, hn]
      exact h.held a x hx
    running := fun x hx => by
      rw [hs] at hx
      rw [hn]
      exact h.running x hx }

/-! ## Operations that send nothing -/

theorem consistent_requeue {reason : String} (h : Loose tid c)
    (hq : ∀ t, c.tasks.get tid = some t → t.state = .QUEUED → (t.attempts : ℤ) < c.max_attempts) :
    Consistent (c.requeue tid reason) := by
  rw [requeue]
  cases hget : c.tasks.get tid with
  | none =>
      refine h.consistent ?_
      rw [state_of, hget]
      exact nofun
  | some t =>
      have hstate := state_of_get hget
      simp only
      split_ifs with hend hmax
      · refine h.consistent ?_
        rw [hstate]
        rcases hend with hs | hs | hs <;> simp [hs]
      · refine consistent_finish h ?_ ?_ ⟨nofun, nofun⟩
        · rw [hstate]
          intro hs
          exact absurd (hq t hget (Option.some.inj hs)) (not_lt.mpr hmax)
        · rw [hstate]
          exact fun hs => absurd (.inl (Option.some.inj hs)) hend
      · refine consistent_enqueue h ?_ rfl rfl (fun _ => (priority_of_get hget).symm)
        rw [hstate]
        exact fun hs => hend (.inl (Option.some.inj hs))

theorem consistent_submit {task : String} {options : O} {task_id : Option String} {priority : ℤ}
    (h : Consistent c) : Consistent (c.submit task options task_id priority).2 := by
  have hid : ∀ k, Consistent { c with next_id := k } := fun k =>
    { queued := h.queued, nodup := h.nodup, sorted := h.sorted, plain := h.plain,
      keyed := h.keyed, held := h.held, running := h.running }
  rw [submit]
  simp only
  split
  · exact hid _
  · rename_i hnone
    have hstate : ∀ s, c.state_of _ ≠ some s := fun s hs => by
      obtain ⟨t, hget, -⟩ := get_of_state hs
      cases hnone.symm.trans hget
    refine consistent_enqueue ((hid _).loose (hstate _)) (hstate _) rfl rfl (fun hmem => ?_)
    exact absurd ((h.queued _).mp hmem) (hstate _)

theorem consistent_resume (h : Consistent c) : Consistent (c.resume_task tid).2 := by
  rw [resume_task]
  cases hget : c.tasks.get tid with
  | none => exact h
  | some t =>
      simp only
      split_ifs with hs
      · exact h
      · have hstate := state_of_get hget
        rw [not_not.mp hs] at hstate
        refine consistent_enqueue (h.loose ?_) ?_ rfl rfl (fun _ => (priority_of_get hget).symm)
        · rw [hstate]
          nofun
        · rw [hstate]
          nofun

theorem consistent_status {s : Status} (h : Consistent c) : Consistent (c.on_status s) := by
  rw [on_status]
  split
  · exact h
  · split
    · exact h
    · rename_i tid _
      split_ifs
      · exact h
      · cases hget : c.tasks.get tid with
        | none => exact h
        | some t => exact consistent_detail h hget rfl rfl rfl (h.plain tid t hget)

/-- What a node holds is not queued. -/
theorem Consistent.held_not_queued (h : Consistent c) (hold : c.holds nid = some tid)
    (hget : c.tasks.get tid = some t) : t.state ≠ .QUEUED := by
  have hstate := state_of_get hget
  rcases h.held nid tid hold with hr | hd
  · exact fun hs => nomatch (hs ▸ hstate).symm.trans hr.1
  · exact fun hs => nomatch (hs ▸ hstate).symm.trans hd

theorem keyed_pop (h : ∀ a n, c.nodes.get a = some n → n.node_id = a) (a : String) (n : Node)
    (hn : (c.nodes.pop nid).get a = some n) : n.node_id = a := by
  rw [OrderedDict.get_pop] at hn
  split_ifs at hn
  exact h a n hn

theorem keyed_set (h : ∀ a n, c.nodes.get a = some n → n.node_id = a) (a : String) (m : Node)
    (hm : (c.nodes.set n.node_id n).get a = some m) : m.node_id = a := by
  rw [OrderedDict.get_set] at hm
  split_ifs at hm with ha
  · exact (Option.some.inj hm) ▸ ha.symm
  · exact h a m hm

theorem holds_pop (a : String) :
    ((c.nodes.pop nid).get a).bind Node.task_id = if a = nid then none else c.holds a := by
  rw [OrderedDict.get_pop]
  split_ifs <;> rfl

/-- A node that comes or goes without an assignment. -/
theorem Consistent.nodes (h : Consistent c) (nodes : OrderedDict String Node)
    (hkeyed : ∀ a n, nodes.get a = some n → n.node_id = a)
    (hnodes : ∀ a, (nodes.get a).bind Node.task_id = c.holds a) :
    Consistent { c with nodes := nodes } where
  queued := h.queued
  nodup := h.nodup
  sorted := h.sorted
  plain := h.plain
  keyed := hkeyed
  held := fun a x hx => h.held a x ((hnodes a).symm.trans hx)
  running := fun x hx => by
    obtain ⟨a, hnode, ha⟩ := h.running x hx
    exact ⟨a, hnode, (hnodes a).trans ha⟩

theorem consistent_node_lost (h : Consistent c) : Consistent (c.on_node_lost nid) := by
  rw [on_node_lost]
  cases hold : (c.nodes.get nid).bind Node.task_id with
  | none =>
      refine h.nodes _ (keyed_pop h.keyed) (fun a => ?_)
      rw [holds_pop]
      split_ifs with ha
      · rw [ha, holds, hold]
      · rfl
  | some tid =>
      refine consistent_requeue (h.let_go hold (keyed_pop h.keyed) holds_pop) ?_
      intro t hget hs
      exact absurd hs (h.held_not_queued hold hget)

/-- Requeuing does not look at the nodes. -/
theorem requeue_nodes (nodes : OrderedDict String Node) (tid reason : String) :
    requeue { c with nodes := nodes } tid reason = { c.requeue tid reason with nodes := nodes } := by
  simp only [requeue]
  cases c.tasks.get tid with
  | none => rfl
  | some t =>
      simp only
      split_ifs
      · rfl
      · rfl
      · by_cases hmem : tid ∈ c.order <;> simp [enqueue, put, hmem]
        rfl

theorem nodes_requeue (reason : String) : (c.requeue tid reason).nodes = c.nodes := by
  have h := congrArg Coordinator.nodes (requeue_nodes (c := c) c.nodes tid reason)
  exact h

theorem consistent_hello {hello : Hello} (h : Consistent c) : Consistent (c.on_hello hello) := by
  set n : Node := { node_id := hello.node_id, label := hello.label, screen := hello.screen,
                    capabilities := hello.capabilities } with hn
  have hnodes : ∀ a, ((c.nodes.set n.node_id n).get a).bind Node.task_id =
      if a = hello.node_id then none else c.holds a := by
    intro a
    rw [OrderedDict.get_set]
    split_ifs <;> rfl
  rw [on_hello]
  cases hold : (c.nodes.get hello.node_id).bind Node.task_id with
  | none =>
      refine h.nodes (c.nodes.set n.node_id n) (keyed_set h.keyed) (fun a => ?_)
      rw [hnodes]
      split_ifs with ha
      · rw [ha, holds, hold]
      · rfl
  | some tid =>
      simp only
      rw [putNode, nodes_requeue, ← requeue_nodes]
      refine consistent_requeue (h.let_go hold (keyed_set h.keyed) hnodes) ?_
      intro t hget hs
      exact absurd hs (h.held_not_queued hold hget)

/-! ## Results -/

theorem release_of_holds (h : Consistent c) (hold : c.holds nid = some tid) :
    Loose tid (c.release nid tid) := by
  obtain ⟨n, hget, htask⟩ := Option.bind_eq_some_iff.mp hold
  have hn : n.node_id = nid := h.keyed nid n hget
  rw [release, hget]
  simp only [htask, if_true]
  refine h.let_go hold (keyed_set h.keyed) (fun a => ?_)
  rw [OrderedDict.get_set]
  simp only [hn]
  split_ifs <;> rfl

theorem release_of_not (hold : c.holds nid ≠ some tid) : c.release nid tid = c := by
  rw [release]
  cases hget : c.nodes.get nid with
  | none => rfl
  | some n =>
      have htask : n.task_id ≠ some tid := fun heq => hold (by rw [holds, hget, Option.bind_some, heq])
      simp only [htask, if_false]

/-- What is said of the task that was let go of. -/
theorem Loose.detail {t' : Task O} (h : Loose tid c) (hget : c.tasks.get tid = some t)
    (hstate : t'.state = t.state) (hprio : t'.priority = t.priority)
    (hplain : t'.pause_reason = t.pause_reason) : Loose tid (c.put tid t') := by
  have hs : ∀ x, (c.put tid t').state_of x = c.state_of x := by
    intro x
    rw [state_of_put]
    split_ifs with hx
    · rw [hx, state_of_get hget, hstate]
    · rfl
  have hp : ∀ x, (c.put tid t').priority_of x = c.priority_of x := by
    intro x
    rw [priority_of_put]
    split_ifs with hx
    · rw [hx, priority_of_get hget, hprio]
    · rfl
  exact {
    queued := fun x => by rw [order_put, hs, h.queued x]
    nodup := h.nodup
    sorted := by simpa only [order_put, hp] using h.sorted
    plain := fun x u hx hq => by
      rw [get_put] at hx
      split_ifs at hx with heq
      · subst heq
        obtain rfl := Option.some.inj hx
        exact hplain.trans (h.plain x t hget (hstate.symm.trans hq))
      · exact h.plain x u hx hq
    keyed := h.keyed
    held := fun a x hx => by
      rw [hs, node_of_put]
      rcases h.held a x hx with ⟨hne, hr⟩ | hd
      · exact .inl ⟨hne, hr.1, by rw [if_neg hne, hr.2]⟩
      · exact .inr hd
    running := fun x hne hx => by
      rw [hs] at hx
      rw [node_of_put, if_neg hne]
      exact h.running x hne hx }

/-- A result for a queued task does not end it. -/
def Retries (c : Coordinator W O) (r : Result) : Prop :=
  ∀ t ∈ c.tasks.get r.task_id, t.state = .QUEUED →
    terminal_code r.code = false ∧ (t.attempts : ℤ) < c.max_attempts

instance (c : Coordinator W O) (r : Result) : Decidable (Retries c r) :=
  inferInstanceAs (Decidable (∀ t ∈ _, _))

theorem consistent_conclude {r : Result} (h : Loose r.task_id c) (hr : Retries c r) :
    Consistent (c.conclude r) := by
  rw [conclude]
  cases hget : c.tasks.get r.task_id with
  | none =>
      refine h.consistent ?_
      rw [state_of, hget]
      rintro ⟨⟩
  | some t =>
      have hstate := state_of_get hget
      simp only
      split_ifs with hend hpause hcode hmax
      · refine h.consistent ?_
        rw [hstate]
        rcases hend with hs | hs | hs <;> simp [hs]
      · have hq : t.state ≠ .QUEUED := fun hs => hpause.1 (h.plain _ t hget hs)
        refine consistent_finish h ?_ ?_ ⟨(by rintro ⟨⟩), (by rintro ⟨⟩)⟩
        · exact fun hs => hq (Option.some.inj (hstate.symm.trans hs))
        · exact fun hs => absurd (.inl (Option.some.inj (hstate.symm.trans hs))) hend
      · refine consistent_finish h ?_ (fun _ => rfl) ⟨(by rintro ⟨⟩), (by rintro ⟨⟩)⟩
        rw [hstate]
        intro hs
        cases hcode.symm.trans (hr t hget (Option.some.inj hs)).1
      · refine consistent_finish h ?_ ?_ ⟨(by rintro ⟨⟩), (by rintro ⟨⟩)⟩
        · rw [hstate]
          intro hs
          exact absurd (hr t hget (Option.some.inj hs)).2 (not_lt.mpr hmax)
        · exact fun hs => absurd (.inl (Option.some.inj (hstate.symm.trans hs))) hend
      · refine consistent_requeue (h.detail hget rfl rfl rfl) (fun t' hget' _ => ?_)
        rw [get_put, if_pos rfl] at hget'
        obtain rfl := Option.some.inj hget'
        exact not_le.mp hmax

/-- A task is finished, whoever holds it. -/
theorem consistent_done (h : Consistent c) (hq : c.state_of tid ≠ some .QUEUED)
    (ht : t.state = .DONE) : Consistent (c.put tid t) where
  queued := fun x => by
    rw [order_put, h.queued x, state_of_put]
    by_cases hx : x = tid
    · subst hx
      simp [hq, ht]
    · rw [if_neg hx]
  nodup := h.nodup
  sorted := by
    rw [order_put]
    refine h.sorted.imp_of_mem (fun {a b} ha hb hab => ?_)
    have hne : ∀ y ∈ c.order, y ≠ tid := fun y hy heq => hq (heq ▸ (h.queued y).mp hy)
    rw [priority_of_put, priority_of_put, if_neg (hne a ha), if_neg (hne b hb)]
    exact hab
  plain := fun x t' hx hs => by
    rw [get_put] at hx
    split_ifs at hx
    · obtain rfl := Option.some.inj hx
      cases hs.symm.trans ht
    · exact h.plain x t' hx hs
  keyed := h.keyed
  held := fun a x hx => by
    simp only [state_of_put, node_of_put]
    by_cases hne : x = tid
    · exact .inr (by rw [if_pos hne, ht])
    · simp only [if_neg hne]
      exact h.held a x hx
  running := fun x hx => by
    simp only [state_of_put, node_of_put, holds_put] at hx ⊢
    by_cases hne : x = tid
    · rw [if_pos hne, ht] at hx
      cases hx
    · rw [if_neg hne] at hx ⊢
      exact h.running x hx

/-- A result keeps the indexes together: it does not end a queued task, and if
the task runs elsewhere it only finishes it. -/
def Timely (c : Coordinator W O) (r : Result) : Prop :=
  Retries c r ∧ ∀ t ∈ c.tasks.get r.task_id, t.state = .RUNNING →
    c.holds r.node_id = some r.task_id ∨
      terminal_code r.code = true ∧ (t.pause_reason = "" ∨ r.code ≠ 5)

instance (c : Coordinator W O) (r : Result) : Decidable (Timely c r) :=
  inferInstanceAs (Decidable (Retries c r ∧ ∀ t ∈ _, _))

theorem consistent_result {r : Result} (h : Consistent c) (hr : Timely c r) :
    Consistent (c.on_result r) := by
  rw [on_result]
  by_cases hold : c.holds r.node_id = some r.task_id
  · refine consistent_conclude (release_of_holds h hold) (fun t hget hs => ?_)
    obtain ⟨n, hn, htask⟩ := Option.bind_eq_some_iff.mp hold
    rw [release, hn] at hget
    simp only [htask, if_true, tasks_putNode] at hget
    exact absurd hs (h.held_not_queued hold hget)
  · rw [release_of_not hold]
    by_cases hrun : c.state_of r.task_id = some .RUNNING
    · obtain ⟨t, hget, hs⟩ := get_of_state hrun
      obtain ⟨hcode, hstop⟩ := (hr.2 t hget hs).resolve_left hold
      have hpause : ¬ (t.pause_reason ≠ "" ∧ (r.code = 5 ∨ terminal_code r.code = false)) := by
        rintro ⟨hne, h5 | hfalse⟩
        · exact hstop.elim (fun heq => hne heq) (fun h5' => h5' h5)
        · cases hcode.symm.trans hfalse
      rw [conclude, hget]
      simp only [hs, reduceCtorEq, or_self, if_false]
      rw [if_neg hpause, if_pos hcode]
      exact consistent_done h (by rw [hrun]; rintro ⟨⟩) rfl
    · exact consistent_conclude (h.loose hrun) hr.1

end Secdogie.Fleet.Coordinator
