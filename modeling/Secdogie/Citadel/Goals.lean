/-
# `Secdogie.Citadel.Goals` — goals, what they depend on, and an order for them

Goals are built by patches of the journal, and a patch may list any ids as the
dependencies of a goal, known or not, once or several times.  `topo_order`
removes goals that wait for nothing: a goal's count is what it lists, but a
removed goal is taken off it once.  So a known goal that is listed twice is
waited for without end, and the order is refused as if there were a cycle.

`topo_order_correct_iff` says that this is the only way it goes wrong.
-/
import Secdogie.Lib.OrderedDict
import Secdogie.Lib.TopoOrder
import Secdogie.Identity.Revocation

namespace Secdogie.Citadel

open Secdogie.Graph Secdogie.Identity

/-! ## Goals, and the patches they are built by -/

structure Goal where
  id : String
  title : String := ""
  status : String := "pending"
  deps : List String := []

abbrev GoalTree := OrderedDict String Goal

def STATUSES : List String := ["pending", "active", "done", "failed"]

section

variable {F : Type} (str : Value F → String)

/-- `_norm_status` -/
def normStatus (value : Value F) : String := if str value ∈ STATUSES then str value else "pending"

/-- `_norm_deps` -/
def normDeps : Option (Value F) → List String
  | some (.arr ds) => (ds.filterMap Value.asStr).filter (· ≠ "")
  | _ => []

/-- `GoalTree.apply` -/
def GoalTree.apply (nodes : GoalTree) (body : Value F) : GoalTree :=
  match textField body "op", textField body "id" with
  | op, some gid =>
      if gid = "" then nodes
      else if op = some "add" then
        nodes.set gid
          { id := gid
            title := str ((field body "title").getD (.str ""))
            status := normStatus str ((field body "status").getD (.str "pending"))
            deps := normDeps (field body "deps") }
      else
        match nodes.get gid with
        | none => nodes
        | some node =>
            if op = some "update" then
              nodes.set gid
                { node with
                  title := ((field body "title").map str).getD node.title
                  status := ((field body "status").map (normStatus str)).getD node.status
                  deps := if (field body "deps").isSome then normDeps (field body "deps")
                    else node.deps }
            else if op = some "complete" then nodes.set gid { node with status := "done" }
            else if op = some "remove" then nodes.pop gid
            else nodes
  | _, none => nodes

/-- `build_goal_tree`, of the bodies of the goal events -/
def build_goal_tree (bodies : List (Value F)) : GoalTree :=
  bodies.foldl (GoalTree.apply str) OrderedDict.empty

end

/-! ## An order for them -/

/-- The ids in a queue, in order. -/
def sorted (ids : List String) : List String := ids.mergeSort (fun a b => decide (a ≤ b))

/-- What the goal lists among the known goals, as often as it is listed. -/
def knownDeps (nodes : GoalTree) (node : Goal) : List String :=
  node.deps.filter (fun d => decide (d ∈ nodes.keys))

/-- The counts, the goals that wait for nothing, and those that are removed. -/
structure Progress where
  indeg : String → ℤ
  queue : List String
  order : List String

/-- The counts at the start. -/
def inDegree (nodes : GoalTree) (gid : String) : ℤ :=
  match nodes.get gid with
  | some node => (knownDeps nodes node).length
  | none => 0

def start (nodes : GoalTree) : Progress where
  indeg := inDegree nodes
  queue := sorted (nodes.keys.filter (fun g => decide (inDegree nodes g = 0)))
  order := []

/-- A removed goal is taken off the count of a goal that lists it. -/
def release (gid : String) (p : Progress) (e : String × Goal) : Progress :=
  if gid ∈ e.2.deps then
    let n := p.indeg e.1 - 1
    { p with
      indeg := Function.update p.indeg e.1 n
      queue := if n = 0 then p.queue ++ [e.1] else p.queue }
  else p

/-- The first goal of the queue is removed. -/
def remove (nodes : GoalTree) (gid : String) (queue : List String) (p : Progress) : Progress :=
  let p := nodes.items.foldl (release gid) { p with queue := queue, order := p.order ++ [gid] }
  { p with queue := sorted p.queue }

/-- The loop; no goal is removed twice, so there are as many rounds as goals at most. -/
def rounds (nodes : GoalTree) : ℕ → Progress → Progress
  | 0, p => p
  | n + 1, p =>
      match p.queue with
      | [] => p
      | gid :: queue => rounds nodes n (remove nodes gid queue p)

/-- `GoalTree.topo_order`; `none` is its `ValueError`. -/
def topo_order (nodes : GoalTree) : Option (List String) :=
  let p := rounds nodes nodes.keys.length (start nodes)
  if p.order.length ≠ nodes.keys.length then none else some p.order

/-! ## Which goals it orders -/

/-- A goal depends on another, both known. -/
def DependsOn (nodes : GoalTree) (g d : String) : Prop :=
  ∃ node, nodes.get g = some node ∧ d ∈ knownDeps nodes node

/-- The cycle is found, and else the goals are put in order. -/
def Correct (nodes : GoalTree) : Prop :=
  (topo_order nodes = none ↔ TopoOrder.Cyclic (DependsOn nodes)) ∧
    ∀ order, topo_order nodes = some order →
      order.Perm nodes.keys ∧ TopoOrder.Ordered (DependsOn nodes) order

/-- No goal lists a known goal twice. -/
def NoRepeat (nodes : GoalTree) : Prop :=
  ∀ g node, nodes.get g = some node → (knownDeps nodes node).Nodup

variable {nodes : GoalTree}

/-- How many removed goals a goal has on its list. -/
def removedOf (order : List String) (node : Goal) : ℕ :=
  (order.filter (fun d => decide (d ∈ node.deps))).length

theorem mem_knownDeps {node : Goal} {d : String} :
    d ∈ knownDeps nodes node ↔ d ∈ node.deps ∧ d ∈ nodes.keys := by
  simp [knownDeps]

theorem mem_sorted {ids : List String} {g : String} : g ∈ sorted ids ↔ g ∈ ids :=
  (List.mergeSort_perm _ _).mem_iff

/-- The loop's invariant.  A count is what the goal lists less the removed goals on its
list, and what is removed or waits for nothing is what has the count 0. -/
structure Invariant (nodes : GoalTree) (p : Progress) : Prop where
  nodup : (p.order ++ p.queue).Nodup
  counts : ∀ g node, nodes.get g = some node →
    p.indeg g = (knownDeps nodes node).length - (removedOf p.order node : ℤ)
  free : ∀ g, g ∈ p.order ++ p.queue ↔ g ∈ nodes.keys ∧ p.indeg g = 0
  ordered : TopoOrder.Ordered (DependsOn nodes) p.order

theorem mem_keys_of_get {g : String} {node : Goal} (h : nodes.get g = some node) :
    g ∈ nodes.keys := OrderedDict.mem_keys.mpr ⟨node, h⟩

/-- Removed goals are on a list once at most, among the known goals listed. -/
theorem removedOf_subperm {order : List String} (hnodup : order.Nodup)
    (hknown : ∀ g ∈ order, g ∈ nodes.keys) (node : Goal) :
    (order.filter (fun d => decide (d ∈ node.deps))).Subperm (knownDeps nodes node) := by
  refine (hnodup.filter _).subperm fun d hd => ?_
  rw [List.mem_filter, decide_eq_true_eq] at hd
  exact mem_knownDeps.mpr ⟨hd.2, hknown d hd.1⟩

theorem removedOf_le {order : List String} (hnodup : order.Nodup)
    (hknown : ∀ g ∈ order, g ∈ nodes.keys) (node : Goal) :
    removedOf order node ≤ (knownDeps nodes node).length :=
  (removedOf_subperm hnodup hknown node).length_le

/-- If all that is listed is removed, nothing is listed twice. -/
theorem knownDeps_perm {order : List String} (hnodup : order.Nodup)
    (hknown : ∀ g ∈ order, g ∈ nodes.keys) {node : Goal}
    (hall : removedOf order node = (knownDeps nodes node).length) :
    (order.filter (fun d => decide (d ∈ node.deps))).Perm (knownDeps nodes node) :=
  (removedOf_subperm hnodup hknown node).perm_of_length_le hall.ge

theorem removedOf_snoc (order : List String) (gid : String) (node : Goal) :
    removedOf (order ++ [gid]) node =
      removedOf order node + if gid ∈ node.deps then 1 else 0 := by
  rw [removedOf, removedOf, List.filter_append, List.length_append]
  congr 1
  by_cases h : gid ∈ node.deps
  · simp [h]
  · simp [h]

namespace Invariant

variable {p : Progress} (h : Invariant nodes p)

include h

theorem known {g : String} (hg : g ∈ p.order) : g ∈ nodes.keys :=
  ((h.free g).mp (List.mem_append_left _ hg)).1

theorem nodup_order : p.order.Nodup := h.nodup.of_append_left

/-- A goal with the count 0 has everything on its list removed. -/
theorem all_removed {g : String} {node : Goal} (hnode : nodes.get g = some node)
    (hzero : p.indeg g = 0) : removedOf p.order node = (knownDeps nodes node).length := by
  have hcount := h.counts g node hnode
  omega

theorem dependency_removed {g d : String} (hzero : p.indeg g = 0) (hd : DependsOn nodes g d) :
    d ∈ p.order := by
  obtain ⟨node, hnode, hmem⟩ := hd
  have hperm := knownDeps_perm h.nodup_order (fun _ => h.known) (h.all_removed hnode hzero)
  exact (List.mem_filter.mp (hperm.mem_iff.mpr hmem)).1

theorem length_le : p.order.length + p.queue.length ≤ nodes.keys.length := by
  rw [← List.length_append]
  exact (h.nodup.subperm fun g hg => ((h.free g).mp hg).1).length_le

end Invariant

/-- The goal is among the items and lists `gid`. -/
def waitsFor (gid g : String) (items : List (String × Goal)) : Bool :=
  items.any (fun e => decide (e.1 = g ∧ gid ∈ e.2.deps))

/-- What one removal does to the counts and the queue. -/
theorem foldl_release (gid : String) : ∀ (items : List (String × Goal)) (p : Progress),
    (items.map Prod.fst).Nodup →
      (items.foldl (release gid) p).order = p.order ∧
        (items.foldl (release gid) p).queue = p.queue ++
          (items.filter (fun e => decide (gid ∈ e.2.deps ∧ p.indeg e.1 = 1))).map Prod.fst ∧
        ∀ g, (items.foldl (release gid) p).indeg g =
          p.indeg g - if waitsFor gid g items then 1 else 0 := by
  intro items
  induction items with
  | nil => exact fun p _ => ⟨rfl, by simp, fun g => by simp [waitsFor]⟩
  | cons e items ih =>
      intro p hnodup
      rw [List.map_cons, List.nodup_cons] at hnodup
      obtain ⟨horder, hqueue, hindeg⟩ := ih (release gid p e) hnodup.2
      have hfresh : ∀ x ∈ items, x.1 ≠ e.1 := fun x hx heq =>
        hnodup.1 (heq ▸ List.mem_map_of_mem hx)
      rw [List.foldl_cons]
      by_cases hdep : gid ∈ e.2.deps
      · have hrel : release gid p e = { p with
            indeg := Function.update p.indeg e.1 (p.indeg e.1 - 1)
            queue := if p.indeg e.1 - 1 = 0 then p.queue ++ [e.1] else p.queue } := by
          rw [release, if_pos hdep]
        rw [hrel] at horder hqueue hindeg ⊢
        have hsame : ∀ x ∈ items, Function.update p.indeg e.1 (p.indeg e.1 - 1) x.1 = p.indeg x.1 :=
          fun x hx => Function.update_of_ne (hfresh x hx) _ _
        refine ⟨horder, ?_, fun g => ?_⟩
        · rw [hqueue]
          have htail : items.filter (fun x => decide (gid ∈ x.2.deps ∧
              Function.update p.indeg e.1 (p.indeg e.1 - 1) x.1 = 1)) =
                items.filter (fun x => decide (gid ∈ x.2.deps ∧ p.indeg x.1 = 1)) :=
            List.filter_congr fun x hx => by rw [hsame x hx]
          rw [htail, List.filter_cons]
          by_cases hone : p.indeg e.1 = 1
          · simp [hone, hdep]
          · have : ¬ p.indeg e.1 - 1 = 0 := by omega
            simp [hone, this]
        · rw [hindeg g, waitsFor, waitsFor, List.any_cons]
          by_cases hg : e.1 = g
          · subst hg
            have hnone : items.any (fun x => decide (x.1 = e.1 ∧ gid ∈ x.2.deps)) = false := by
              rw [List.any_eq_false]
              exact fun x hx => by simp [hfresh x hx]
            have hself : Function.update p.indeg e.1 (p.indeg e.1 - 1) e.1 = p.indeg e.1 - 1 :=
              Function.update_self _ _ _
            simp only [hnone, hself, hdep, and_self, decide_true, Bool.or_false, if_true,
              Bool.false_eq_true, if_false]
            omega
          · have hother : Function.update p.indeg e.1 (p.indeg e.1 - 1) g = p.indeg g :=
              Function.update_of_ne (Ne.symm hg) _ _
            simp only [hother, hg, false_and, decide_false, Bool.false_or]
      · have hrel : release gid p e = p := by rw [release, if_neg hdep]
        rw [hrel] at horder hqueue hindeg ⊢
        refine ⟨horder, ?_, fun g => ?_⟩
        · rw [hqueue, List.filter_cons, if_neg (by simp [hdep])]
        · have hnot : decide (e.1 = g ∧ gid ∈ e.2.deps) = false := by simp [hdep]
          rw [hindeg g, waitsFor, waitsFor, List.any_cons, hnot, Bool.false_or]

theorem waitsFor_iff {gid g : String} :
    waitsFor gid g nodes.items = true ↔ ∃ node, nodes.get g = some node ∧ gid ∈ node.deps := by
  rw [waitsFor, List.any_eq_true]
  constructor
  · rintro ⟨⟨a, node⟩, hmem, heq⟩
    obtain ⟨rfl, hdep⟩ := of_decide_eq_true heq
    exact ⟨node, OrderedDict.get_eq_some_iff.mpr hmem, hdep⟩
  · rintro ⟨node, hnode, hdep⟩
    exact ⟨(g, node), OrderedDict.get_eq_some_iff.mp hnode, decide_eq_true ⟨rfl, hdep⟩⟩

/-- The goals whose last dependency is removed. -/
def released (nodes : GoalTree) (gid : String) (p : Progress) : List String :=
  (nodes.items.filter (fun e => decide (gid ∈ e.2.deps ∧ p.indeg e.1 = 1))).map Prod.fst

theorem mem_released {p : Progress} {gid g : String} :
    g ∈ released nodes gid p ↔ waitsFor gid g nodes.items = true ∧ p.indeg g = 1 := by
  rw [released, List.mem_map, waitsFor_iff]
  constructor
  · rintro ⟨⟨a, node⟩, hmem, rfl⟩
    rw [List.mem_filter] at hmem
    obtain ⟨hdep, hone⟩ := of_decide_eq_true hmem.2
    exact ⟨⟨node, OrderedDict.get_eq_some_iff.mpr hmem.1, hdep⟩, hone⟩
  · rintro ⟨⟨node, hnode, hdep⟩, hone⟩
    exact ⟨(g, node), List.mem_filter.mpr
      ⟨OrderedDict.get_eq_some_iff.mp hnode, decide_eq_true ⟨hdep, hone⟩⟩, rfl⟩

theorem Invariant.removed {p : Progress} {gid : String} {queue : List String}
    (h : Invariant nodes p) (hqueue : p.queue = gid :: queue) :
    Invariant nodes (remove nodes gid queue p) := by
  obtain ⟨horder', hqueue', hindeg'⟩ := foldl_release gid nodes.items
    { p with queue := queue, order := p.order ++ [gid] } nodes.nodup
  have ho : (remove nodes gid queue p).order = p.order ++ [gid] := horder'
  have hq : (remove nodes gid queue p).queue = sorted (queue ++ released nodes gid p) :=
    congrArg sorted hqueue'
  -- what was free and what is released
  have hold : p.order ++ p.queue = (p.order ++ [gid]) ++ queue := by
    rw [hqueue, List.append_assoc, List.singleton_append]
  have hgid : gid ∈ p.order ++ p.queue := by
    rw [hqueue]
    exact List.mem_append_right _ List.mem_cons_self
  have hzero := ((h.free gid).mp hgid).2
  have hnodup_order : (p.order ++ [gid]).Nodup := by
    have hall := h.nodup
    rw [hold] at hall
    exact hall.of_append_left
  have hknown : ∀ g ∈ p.order ++ [gid], g ∈ nodes.keys := fun g hg =>
    ((h.free g).mp (hold ▸ List.mem_append_left queue hg)).1
  have hcounts : ∀ g node, nodes.get g = some node →
      (remove nodes gid queue p).indeg g =
        (knownDeps nodes node).length - (removedOf (p.order ++ [gid]) node : ℤ) := by
    intro g node hnode
    have hcount := h.counts g node hnode
    have hwaits : waitsFor gid g nodes.items = decide (gid ∈ node.deps) := by
      rw [Bool.eq_iff_iff, waitsFor_iff, decide_eq_true_eq]
      constructor
      · rintro ⟨node', hnode', hdep⟩
        obtain rfl := Option.some.inj (hnode.symm.trans hnode')
        exact hdep
      · exact fun hdep => ⟨node, hnode, hdep⟩
    have hnew : (remove nodes gid queue p).indeg g =
        p.indeg g - if waitsFor gid g nodes.items then 1 else 0 := hindeg' g
    rw [hnew, hwaits, removedOf_snoc, hcount]
    by_cases hdep : gid ∈ node.deps
    · simp only [hdep, decide_true, if_true]
      omega
    · simp only [hdep, decide_false, Bool.false_eq_true, if_false]
      omega
  -- a goal that is free already does not wait for the one removed
  have hstays : ∀ g, p.indeg g = 0 → waitsFor gid g nodes.items = false := by
    intro g hg
    by_contra hwaits
    rw [Bool.not_eq_false, waitsFor_iff] at hwaits
    obtain ⟨node, hnode, hdep⟩ := hwaits
    have hcount := hcounts g node hnode
    have hnew : (remove nodes gid queue p).indeg g =
        p.indeg g - if waitsFor gid g nodes.items then 1 else 0 := hindeg' g
    rw [waitsFor_iff.mpr ⟨node, hnode, hdep⟩] at hnew
    have hle := removedOf_le hnodup_order hknown node
    simp only [if_true] at hnew
    omega
  have hmem : ∀ g, g ∈ (remove nodes gid queue p).order ++ (remove nodes gid queue p).queue ↔
      g ∈ p.order ++ p.queue ∨ waitsFor gid g nodes.items = true ∧ p.indeg g = 1 := by
    intro g
    rw [ho, hq, hold, List.mem_append, mem_sorted, @List.mem_append _ g queue, mem_released,
      ← or_assoc, ← List.mem_append]
  refine ⟨?_, fun g node hnode => ?_, fun g => ?_, ?_⟩
  · have hperm : (sorted (queue ++ released nodes gid p)).Perm (queue ++ released nodes gid p) :=
      List.mergeSort_perm _ _
    rw [ho, hq, (hperm.append_left _).nodup_iff, ← List.append_assoc, ← hold]
    refine List.nodup_append.mpr ⟨h.nodup, nodes.nodup.sublist (List.filter_sublist.map _), ?_⟩
    rintro a ha b hb rfl
    have hone := (mem_released.mp hb).2
    rw [((h.free a).mp ha).2] at hone
    exact nomatch hone
  · rw [ho]
    exact hcounts g node hnode
  · have hnew : (remove nodes gid queue p).indeg g =
        p.indeg g - if waitsFor gid g nodes.items then 1 else 0 := hindeg' g
    rw [hmem, hnew]
    constructor
    · rintro (hfree | ⟨hwaits, hone⟩)
      · obtain ⟨hkey, hg⟩ := (h.free g).mp hfree
        rw [hstays g hg, hg]
        exact ⟨hkey, rfl⟩
      · obtain ⟨node, hnode, -⟩ := waitsFor_iff.mp hwaits
        rw [hwaits, hone]
        exact ⟨mem_keys_of_get hnode, rfl⟩
    · rintro ⟨hkey, hg⟩
      cases hwaits : waitsFor gid g nodes.items with
      | true =>
          rw [hwaits, if_pos rfl] at hg
          exact .inr ⟨rfl, by omega⟩
      | false =>
          rw [hwaits, if_neg (by decide), Int.sub_zero] at hg
          exact .inl ((h.free g).mpr ⟨hkey, hg⟩)
  · rw [ho]
    exact TopoOrder.ordered_snoc h.ordered fun d hd => h.dependency_removed hzero hd

theorem invariant_start (nodes : GoalTree) : Invariant nodes (start nodes) where
  nodup := (List.mergeSort_perm _ _).nodup_iff.mpr (nodes.nodup_keys.filter _)
  counts := by
    intro g node hnode
    simp [start, inDegree, hnode, removedOf]
  free := by
    intro g
    rw [start, List.nil_append, mem_sorted, List.mem_filter, decide_eq_true_eq]
  ordered := TopoOrder.ordered_nil

/-- The rounds end with nothing left in the queue. -/
theorem rounds_spec : ∀ (n : ℕ) (p : Progress), Invariant nodes p →
    nodes.keys.length ≤ n + p.order.length →
      Invariant nodes (rounds nodes n p) ∧ (rounds nodes n p).queue = [] := by
  intro n
  induction n with
  | zero =>
      intro p h hlen
      have hle := h.length_le
      exact ⟨h, List.length_eq_zero_iff.mp (by rw [rounds]; omega)⟩
  | succ n ih =>
      intro p h hlen
      rw [rounds]
      split
      · next hq => exact ⟨h, hq⟩
      · next gid queue hq =>
          have horder : (remove nodes gid queue p).order = p.order ++ [gid] :=
            (foldl_release gid nodes.items _ nodes.nodup).1
          refine ih _ (h.removed hq) ?_
          rw [horder, List.length_append, List.length_singleton]
          omega

/-- What is left at the end, if anything is, waits for something that is left, as long as
nothing is listed twice. -/
theorem Invariant.stuck {p : Progress} (h : Invariant nodes p) (hq : p.queue = [])
    (hnorepeat : NoRepeat nodes) {g : String} (hg : g ∈ nodes.keys) (hleft : g ∉ p.order) :
    ∃ d, d ∈ nodes.keys ∧ d ∉ p.order ∧ DependsOn nodes g d := by
  obtain ⟨node, hnode⟩ := OrderedDict.mem_keys.mp hg
  by_contra hnone
  have hall : ∀ d ∈ knownDeps nodes node, d ∈ p.order := by
    intro d hd
    by_contra hd'
    exact hnone ⟨d, (mem_knownDeps.mp hd).2, hd', node, hnode, hd⟩
  have hsub : (knownDeps nodes node).Subperm (p.order.filter (fun d => decide (d ∈ node.deps))) :=
    (hnorepeat g node hnode).subperm fun d hd =>
      List.mem_filter.mpr ⟨hall d hd, decide_eq_true (mem_knownDeps.mp hd).1⟩
  have hle := hsub.length_le
  have hle' := removedOf_le h.nodup_order (fun _ => h.known) node
  have hcount := h.counts g node hnode
  have hzero : p.indeg g = 0 := by
    rw [removedOf] at hcount hle'
    omega
  refine hleft ?_
  simpa [hq] using (h.free g).mpr ⟨hg, hzero⟩

/-- The loop's last state. -/
def final (nodes : GoalTree) : Progress := rounds nodes nodes.keys.length (start nodes)

theorem final_spec (nodes : GoalTree) :
    Invariant nodes (final nodes) ∧ (final nodes).queue = [] :=
  rounds_spec nodes.keys.length (start nodes) (invariant_start nodes) (by simp [start])

theorem topo_order_eq_some {order : List String} (h : topo_order nodes = some order) :
    order = (final nodes).order ∧ order.Perm nodes.keys := by
  rw [topo_order] at h
  split at h
  · exact nomatch h
  · next hlen =>
      obtain rfl := Option.some.inj h
      obtain ⟨hinv, -⟩ := final_spec nodes
      exact ⟨rfl, (hinv.nodup_order.subperm fun _ => hinv.known).perm_of_length_le
        (not_not.mp hlen).ge⟩

theorem topo_order_eq_none (h : topo_order nodes = none) :
    ∃ g ∈ nodes.keys, g ∉ (final nodes).order := by
  rw [topo_order] at h
  split at h
  · next hlen =>
      by_contra hall
      push Not at hall
      have hinv := (final_spec nodes).1
      have hle := (nodes.nodup_keys.subperm hall).length_le
      have hle' := (hinv.nodup_order.subperm fun _ => hinv.known).length_le
      exact hlen (le_antisymm hle' hle)
  · exact nomatch h

/-- An order that is given is one, and then there is no cycle and nothing is listed twice. -/
theorem topo_order_some {order : List String} (h : topo_order nodes = some order) :
    order.Perm nodes.keys ∧ TopoOrder.Ordered (DependsOn nodes) order ∧
      ¬ TopoOrder.Cyclic (DependsOn nodes) ∧ NoRepeat nodes := by
  obtain ⟨rfl, hperm⟩ := topo_order_eq_some h
  have hinv := (final_spec nodes).1
  refine ⟨hperm, hinv.ordered, ?_, fun g node hnode => ?_⟩
  · refine TopoOrder.not_cyclic_of_ordered hinv.nodup_order hinv.ordered ?_
    rintro a b ⟨node, hnode, -⟩
    exact hperm.mem_iff.mpr (mem_keys_of_get hnode)
  · have hzero := ((hinv.free g).mp
      (List.mem_append_left _ (hperm.mem_iff.mpr (mem_keys_of_get hnode)))).2
    have hall := hinv.all_removed hnode hzero
    exact (knownDeps_perm hinv.nodup_order (fun _ => hinv.known) hall).nodup_iff.mp
      (hinv.nodup_order.filter _)

theorem topo_order_none (hnorepeat : NoRepeat nodes) (h : topo_order nodes = none) :
    TopoOrder.Cyclic (DependsOn nodes) := by
  obtain ⟨g, hg, hleft⟩ := topo_order_eq_none h
  obtain ⟨hinv, hq⟩ := final_spec nodes
  refine TopoOrder.cyclic_of_stuck (s := {g | g ∈ nodes.keys ∧ g ∉ (final nodes).order})
    (nodes.keys.finite_toSet.subset fun _ hx => hx.1) ⟨hg, hleft⟩ ?_
  rintro x ⟨hx, hx'⟩
  obtain ⟨d, hd, hd', hn⟩ := hinv.stuck hq hnorepeat hx hx'
  exact ⟨d, ⟨hd, hd'⟩, hn⟩

/-- The cycle check is right exactly if there is a cycle or no goal lists a known goal
twice. -/
theorem topo_order_correct_iff (nodes : GoalTree) :
    Correct nodes ↔ TopoOrder.Cyclic (DependsOn nodes) ∨ NoRepeat nodes := by
  constructor
  · rintro ⟨hnone, -⟩
    cases h : topo_order nodes with
    | none => exact .inl (hnone.mp h)
    | some order => exact .inr (topo_order_some h).2.2.2
  · intro hcond
    refine ⟨⟨fun h => ?_, fun hcycle => ?_⟩, fun order h => ?_⟩
    · exact hcond.elim id fun hnorepeat => topo_order_none hnorepeat h
    · cases h : topo_order nodes with
      | none => rfl
      | some order => exact absurd hcycle (topo_order_some h).2.2.1
    · obtain ⟨hperm, hordered, -⟩ := topo_order_some h
      exact ⟨hperm, hordered⟩

/-! ## A dependency that is listed twice -/

/-- A goal, and another that lists it twice. -/
def patches : List (Value (Option Int)) :=
  [.obj [("id", .str "g0"), ("op", .str "add")],
    .obj [("deps", .arr [.str "g0", .str "g0"]), ("id", .str "g1"), ("op", .str "add")]]

def twice : GoalTree := build_goal_tree (fun _ => "") patches

theorem twice_items : twice.items =
    [("g0", { id := "g0" }), ("g1", { id := "g1", deps := ["g0", "g0"] })] := rfl

theorem dependsOn_twice {g d : String} (h : DependsOn twice g d) : g = "g1" ∧ d = "g0" := by
  obtain ⟨node, hnode, hd⟩ := h
  rw [OrderedDict.get_eq_some_iff, twice_items] at hnode
  have hdeps := (mem_knownDeps.mp hd).1
  simp only [List.mem_cons, Prod.mk.injEq, List.not_mem_nil, or_false] at hnode
  rcases hnode with ⟨-, rfl⟩ | ⟨rfl, rfl⟩
  · cases hdeps
  · simpa using hdeps

/-- There is no cycle, and still no order is given. -/
theorem order_refused : ¬ ∀ nodes : GoalTree, Correct nodes := by
  intro hall
  have hg1 : twice.get "g1" = some { id := "g1", deps := ["g0", "g0"] } := rfl
  cases h : topo_order twice with
  | none =>
      refine TopoOrder.not_cyclic_of_ordered (l := ["g0", "g1"]) (by decide) ?_ ?_
        ((hall twice).1.mp h)
      · have hone : TopoOrder.Ordered (DependsOn twice) ["g0"] :=
          TopoOrder.ordered_snoc TopoOrder.ordered_nil fun d hd =>
            absurd (dependsOn_twice hd).1 (by decide)
        exact TopoOrder.ordered_snoc hone fun d hd => by simp [(dependsOn_twice hd).2]
      · exact fun a b hn => by simp [(dependsOn_twice hn).1]
  | some order =>
      have hnodup := (topo_order_some h).2.2.2 "g1" _ hg1
      have hdeps : knownDeps twice { id := "g1", deps := ["g0", "g0"] } = ["g0", "g0"] := by
        simp [knownDeps, OrderedDict.keys, twice_items]
      rw [hdeps] at hnodup
      exact absurd hnodup (by decide)

end Secdogie.Citadel
