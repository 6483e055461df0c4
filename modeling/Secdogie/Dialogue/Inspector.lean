/-
# `Secdogie.Dialogue.Inspector` — the structural view the operator watches

The App folds snapshots into one state.  A full snapshot replaces the tree; a
delta applies only to the generation it names.  A packet that does not fit
leaves the tree as it was and marks the state `needs_resync`.

`rebuild_spec` and `patch_add`, `patch_update`, `patch_remove` say what the
folds do to the tree, node by node, for lists of changes that fit it.
-/
import Secdogie.Dialogue.Protocol
import Secdogie.Lib.OrderedDict

namespace Secdogie.Dialogue

deriving instance DecidableEq for NodeDelta
deriving instance DecidableEq for DibRef

structure NodeView where
  index : Int
  parent_index : Int
  role : String
  name : String
  automation_id : String
  path_index : List Int
  bounds : List.Vector Int 4
  enabled : Bool
  is_interactive : Bool

/-- `NodeView.of` -/
def NodeView.of (d : NodeDelta) : NodeView :=
  ⟨d.index, d.parent_index, d.role, d.name, d.automation_id, d.path_index, d.bounds, d.enabled,
    d.is_interactive⟩

abbrev Nodes := OrderedDict Int NodeView

abbrev Dibs := OrderedDict Int DibRef

structure InspectorState where
  window_id : Int := -1
  app_pid : Int := 0
  generation : Int := -1
  nodes : Nodes := .empty
  dib : Dibs := .empty
  focused : Int := -1
  needs_resync : Bool := true
  problem : String := "no snapshot yet"

def EMPTY : InspectorState := {}

/-- Why a snapshot cannot be folded: it is inconsistent, or a removal walks
round a cycle for ever. -/
inductive Trouble where
  | inconsistent (why : String)
  | endless

/-- The nodes below `i`, as `_subtree` lists them. -/
def childrenOf (nodes : Nodes) (i : Int) : List Int :=
  (nodes.values.filter (fun n => n.parent_index = i)).map NodeView.index

/-- The loop of `_subtree`: the top of the stack comes first.  On a tree each
node is taken once. -/
def subtree_loop (nodes : Nodes) : ℕ → List Int → List Int → Except Trouble (List Int)
  | _, [], out => .ok out
  | 0, _ :: _, _ => .error .endless
  | k + 1, i :: stack, out =>
      subtree_loop nodes k ((childrenOf nodes i).reverse ++ stack) (out ++ [i])

/-- `_subtree` -/
def subtree (nodes : Nodes) (root : Int) : Except Trouble (List Int) :=
  subtree_loop nodes nodes.items.length [root] []

/-- `_rebuild` -/
def rebuild_one (nodes : Nodes) (d : NodeDelta) : Except Trouble Nodes :=
  match nodes.get d.index with
  | some _ => .error (.inconsistent
      ("node " ++ toString d.index ++ " listed twice in a full snapshot"))
  | none => .ok (nodes.set d.index (.of d))

def rebuild (deltas : List NodeDelta) : Except Trouble (Nodes × Dibs) := do
  let nodes ← deltas.foldlM rebuild_one .empty
  .ok (nodes, .empty)

/-- One change of `_patch`. -/
def patch_one (acc : Nodes × Dibs) (d : NodeDelta) : Except Trouble (Nodes × Dibs) :=
  match d.op, acc.1.get d.index with
  | .add, some _ =>
      .error (.inconsistent ("add of existing node " ++ toString d.index))
  | .add, none => .ok (acc.1.set d.index (.of d), acc.2)
  | .update, none =>
      .error (.inconsistent ("update of unknown node " ++ toString d.index))
  | .update, some _ => .ok (acc.1.set d.index (.of d), acc.2)
  | .remove, none =>
      .error (.inconsistent ("remove of unknown node " ++ toString d.index))
  | .remove, some _ => do
      let gone ← subtree acc.1 d.index
      .ok (gone.foldl OrderedDict.pop acc.1, gone.foldl OrderedDict.pop acc.2)

/-- `_patch` -/
def patch (nodes : Nodes) (dib : Dibs) (deltas : List NodeDelta) : Except Trouble (Nodes × Dibs) :=
  deltas.foldlM patch_one (nodes, dib)

/-- The walk of `_check_tree` up from one node, with the number of steps left:
the nodes on the way to a root, or to a node known to reach one. -/
def walk_up (nodes : Nodes) (ok : List Int) (start : Int) :
    ℕ → List Int → Int → Except Trouble (List Int)
  | 0, _, _ => .error (.inconsistent ("cycle through node " ++ toString start))
  | k + 1, path, i =>
      if i = -1 ∨ i ∈ ok then .ok path
      else
        match nodes.get i with
        | none => .error (.inconsistent ("node " ++ toString (path.getLastD start) ++
            " has unknown parent " ++ toString i))
        | some n => walk_up nodes ok start k (path ++ [i]) n.parent_index

/-- `_check_tree` -/
def check_tree (nodes : Nodes) : Except Trouble (List Int) :=
  nodes.keys.foldlM
    (fun ok start => do
      let path ← walk_up nodes ok start (nodes.items.length + 1) [] start
      .ok (ok ++ path)) []

/-- The loop over the DIB references of a snapshot. -/
def place_dib (nodes : Nodes) (dib : Dibs) (ref : DibRef) : Except Trouble Dibs :=
  match nodes.get ref.node_index with
  | none => .error (.inconsistent ("DIB reference to unknown node " ++ toString ref.node_index))
  | some _ => .ok (dib.set ref.node_index ref)

/-- The `try` block of `apply`. -/
def fold_packet (state : InspectorState) (pkt : StateSnapshotPacket) :
    Except Trouble (Nodes × Dibs) := do
  let deltas := pkt.nodes.map Made.obj
  let (nodes, dib) ← if pkt.full then rebuild deltas else patch state.nodes state.dib deltas
  let _ ← check_tree nodes
  let dib ← (pkt.dib_references.map Made.obj).foldlM (place_dib nodes) dib
  if pkt.focused_node_index ≠ -1 ∧ nodes.get pkt.focused_node_index = none then
    .error (.inconsistent ("focus on unknown node " ++ toString pkt.focused_node_index))
  else .ok (nodes, dib)

/-- `_desync` -/
def desync (state : InspectorState) (why : String) : InspectorState :=
  { state with needs_resync := true, problem := why }

/-- The packet is folded in; `none` if that never ends. -/
def fold_in (state : InspectorState) (pkt : StateSnapshotPacket) : Option InspectorState :=
  match fold_packet state pkt with
  | .error .endless => none
  | .error (.inconsistent why) => some (desync state why)
  | .ok (nodes, dib) =>
      some {
        window_id := pkt.window_id, app_pid := pkt.app_pid, generation := pkt.generation,
        nodes, dib, focused := pkt.focused_node_index, needs_resync := false, problem := "" }

/-- `apply` -/
def apply (state : InspectorState) (pkt : StateSnapshotPacket) : Option InspectorState :=
  if pkt.window_id = state.window_id ∧ pkt.generation ≤ state.generation then some state
  else if pkt.full then fold_in state pkt
  else if state.needs_resync then some state
  else if pkt.window_id ≠ state.window_id then
    some (desync state "a delta for a window we hold no tree for")
  else if pkt.base_generation ≠ state.generation then
    some (desync state ("gap: delta applies to generation " ++ toString pkt.base_generation ++
      ", holding " ++ toString state.generation))
  else fold_in state pkt

/-! ## Folding changes that fit -/

section

variable {nodes nodes' : Nodes} {dib dib' : Dibs} {i : Int}

/-- The folded nodes: those of the list are as it says, the others as before. -/
def Becomes (deltas : List NodeDelta) (nodes nodes' : Nodes) : Prop :=
  (∀ d ∈ deltas, nodes'.get d.index = some (.of d)) ∧
    ∀ i, (∀ d ∈ deltas, d.index ≠ i) → nodes'.get i = nodes.get i

theorem Becomes.cons {d : NodeDelta} {deltas : List NodeDelta}
    (hne : ∀ e ∈ deltas, d.index ≠ e.index)
    (h : Becomes deltas (nodes.set d.index (.of d)) nodes') : Becomes (d :: deltas) nodes nodes' := by
  constructor
  · intro e he
    rcases List.mem_cons.mp he with rfl | he
    · rw [h.2 e.index (fun e' he' => (hne e' he').symm), OrderedDict.get_set, if_pos rfl]
    · exact h.1 e he
  · intro i hi
    rw [h.2 i (fun e he => hi e (List.mem_cons_of_mem _ he)), OrderedDict.get_set,
      if_neg (fun heq => hi d List.mem_cons_self heq.symm)]

theorem rebuild_spec : ∀ (deltas : List NodeDelta) (nodes : Nodes),
    (deltas.map NodeDelta.index).Nodup → (∀ d ∈ deltas, nodes.get d.index = none) →
    ∃ nodes', deltas.foldlM rebuild_one nodes = .ok nodes' ∧ Becomes deltas nodes nodes'
  | [], nodes, _, _ => ⟨nodes, rfl, nofun, fun _ _ => rfl⟩
  | d :: deltas, nodes, hnd, hnew => by
      rw [List.map_cons, List.nodup_cons] at hnd
      have hne : ∀ e ∈ deltas, d.index ≠ e.index := fun e he heq =>
        hnd.1 (heq ▸ List.mem_map_of_mem he)
      obtain ⟨nodes', heq, hbecomes⟩ := rebuild_spec deltas (nodes.set d.index (.of d)) hnd.2
        (fun e he => by
          rw [OrderedDict.get_set, if_neg (hne e he).symm]
          exact hnew e (List.mem_cons_of_mem _ he))
      refine ⟨nodes', ?_, hbecomes.cons hne⟩
      rw [List.foldlM_cons, rebuild_one, hnew d List.mem_cons_self]
      exact heq

/-- Nodes that are new, and nodes that are there. -/
theorem patch_set (op : NodeOp) (hop : op ≠ .remove) : ∀ (deltas : List NodeDelta) (nodes : Nodes)
    (dib : Dibs), (∀ d ∈ deltas, d.op = op) → (deltas.map NodeDelta.index).Nodup →
    (∀ d ∈ deltas, (nodes.get d.index).isSome = decide (op = .update)) →
    ∃ nodes', patch nodes dib deltas = .ok (nodes', dib) ∧ Becomes deltas nodes nodes'
  | [], nodes, dib, _, _, _ => ⟨nodes, rfl, nofun, fun _ _ => rfl⟩
  | d :: deltas, nodes, dib, hops, hnd, hthere => by
      rw [List.map_cons, List.nodup_cons] at hnd
      have hne : ∀ e ∈ deltas, d.index ≠ e.index := fun e he heq =>
        hnd.1 (heq ▸ List.mem_map_of_mem he)
      obtain ⟨nodes', heq, hbecomes⟩ := patch_set op hop deltas (nodes.set d.index (.of d)) dib
        (fun e he => hops e (List.mem_cons_of_mem _ he)) hnd.2
        (fun e he => by
          rw [OrderedDict.get_set, if_neg (hne e he).symm]
          exact hthere e (List.mem_cons_of_mem _ he))
      refine ⟨nodes', ?_, hbecomes.cons hne⟩
      have hone : patch_one (nodes, dib) d = .ok (nodes.set d.index (.of d), dib) := by
        have hd := hthere d List.mem_cons_self
        rw [patch_one, hops d List.mem_cons_self]
        cases op with
        | add =>
            have hnone : nodes.get d.index = none := by simpa using hd
            simp only [hnone]
        | update =>
            obtain ⟨v, hv⟩ := Option.isSome_iff_exists.mp (by simpa using hd)
            simp only [hv]
        | remove => exact absurd rfl hop
      rw [patch, List.foldlM_cons, hone]
      exact heq

/-- Every node is a root or hangs under the root 0. -/
structure Flat (nodes : Nodes) : Prop where
  root : ∃ v, nodes.get 0 = some v ∧ v.parent_index = -1
  leaf : ∀ i v, nodes.get i = some v → i ≠ 0 → v.parent_index = 0

theorem Flat.no_children (h : Flat nodes) (hi : 0 < i) : childrenOf nodes i = [] := by
  rw [childrenOf, List.map_eq_nil_iff, List.filter_eq_nil_iff]
  intro w hw
  obtain ⟨j, hj⟩ := OrderedDict.mem_values.mp hw
  rw [decide_eq_true_iff]
  by_cases hj0 : j = 0
  · obtain ⟨u, hu, hp⟩ := h.root
    obtain rfl := Option.some.inj ((hj0 ▸ hj).symm.trans hu)
    omega
  · rw [h.leaf j w hj hj0]
    omega

theorem items_length_pos {v : NodeView} (hi : nodes.get i = some v) : 0 < nodes.items.length :=
  List.length_pos_of_mem (OrderedDict.get_eq_some_iff.mp hi)

/-- A node other than the root has nothing below it. -/
theorem Flat.alone (h : Flat nodes) {v : NodeView} (hi : nodes.get i = some v) (h0 : 0 < i) :
    subtree nodes i = .ok [i] := by
  obtain ⟨k, hk⟩ := Nat.exists_eq_succ_of_ne_zero (items_length_pos hi).ne'
  rw [subtree, hk, subtree_loop, h.no_children h0]
  cases k <;> rfl

/-- Nodes other than the root that are there go, with their images. -/
theorem patch_remove : ∀ (deltas : List NodeDelta) (nodes : Nodes) (dib : Dibs), Flat nodes →
    (∀ d ∈ deltas, d.op = .remove ∧ 0 < d.index) → (deltas.map NodeDelta.index).Nodup →
    (∀ d ∈ deltas, nodes.get d.index ≠ none) →
    ∃ nodes' dib', patch nodes dib deltas = .ok (nodes', dib') ∧
      (∀ i, nodes'.get i = if i ∈ deltas.map NodeDelta.index then none else nodes.get i) ∧
      ∀ i, dib'.get i = if i ∈ deltas.map NodeDelta.index then none else dib.get i
  | [], nodes, dib, _, _, _, _ => ⟨nodes, dib, rfl, fun _ => rfl, fun _ => rfl⟩
  | d :: deltas, nodes, dib, hflat, hops, hnd, hthere => by
      rw [List.map_cons, List.nodup_cons] at hnd
      obtain ⟨hop, hpos⟩ := hops d List.mem_cons_self
      obtain ⟨v, hv⟩ := Option.ne_none_iff_exists'.mp (hthere d List.mem_cons_self)
      have hflat' : Flat (nodes.pop d.index) := by
        refine ⟨?_, fun i w hw h0 => ?_⟩
        · rw [OrderedDict.get_pop, if_neg hpos.ne]
          exact hflat.root
        · rw [OrderedDict.get_pop] at hw
          split_ifs at hw
          exact hflat.leaf i w hw h0
      obtain ⟨nodes', dib', heq, hnodes, hdib⟩ := patch_remove deltas (nodes.pop d.index)
        (dib.pop d.index) hflat' (fun e he => hops e (List.mem_cons_of_mem _ he)) hnd.2
        (fun e he => by
          have hne : e.index ≠ d.index := fun heq => hnd.1 (heq ▸ List.mem_map_of_mem he)
          rw [OrderedDict.get_pop, if_neg hne]
          exact hthere e (List.mem_cons_of_mem _ he))
      have hone : patch_one (nodes, dib) d = .ok (nodes.pop d.index, dib.pop d.index) := by
        rw [patch_one, hop]
        simp only [hv, hflat.alone hv hpos]
        rfl
      refine ⟨nodes', dib', ?_, fun i => ?_, fun i => ?_⟩
      · rw [patch, List.foldlM_cons, hone]
        exact heq
      · rw [hnodes, OrderedDict.get_pop, List.map_cons]
        by_cases hi : i = d.index <;> simp [hi]
      · rw [hdib, OrderedDict.get_pop, List.map_cons]
        by_cases hi : i = d.index <;> simp [hi]

/-- A flat tree passes the check. -/
theorem Flat.walks (h : Flat nodes) (ok : List Int) {start : Int} {v : NodeView}
    (hv : nodes.get start = some v) :
    ∃ path, walk_up nodes ok start (nodes.items.length + 1) [] start = .ok path := by
  obtain ⟨r, hr, hparent⟩ := h.root
  by_cases hok : start = -1 ∨ start ∈ ok
  · exact ⟨[], by rw [walk_up, if_pos hok]⟩
  · obtain ⟨k, hk⟩ := Nat.exists_eq_succ_of_ne_zero (items_length_pos hv).ne'
    rw [walk_up, if_neg hok, hv, hk]
    simp only
    by_cases h0 : start = 0
    · obtain rfl := Option.some.inj ((h0 ▸ hv).symm.trans hr)
      exact ⟨[start], by rw [walk_up, if_pos (.inl hparent)]; rfl⟩
    · rw [h.leaf start v hv h0]
      by_cases hroot : (0 : Int) = -1 ∨ 0 ∈ ok
      · exact ⟨[start], by rw [walk_up, if_pos hroot]; rfl⟩
      · -- the root is another node, so there are steps left for it
        have htwo : 2 ≤ nodes.items.length := by
          have hsub : [start, 0] ⊆ nodes.keys := by
            intro i hi
            rw [List.mem_cons, List.mem_singleton] at hi
            rcases hi with rfl | rfl
            · exact OrderedDict.mem_keys.mpr ⟨v, hv⟩
            · exact OrderedDict.mem_keys.mpr ⟨r, hr⟩
          have hle := (List.subperm_of_subset (by simp [h0]) hsub).length_le
          simpa [OrderedDict.keys] using hle
        obtain ⟨l, rfl⟩ : ∃ l, k = l + 1 := ⟨k - 1, by omega⟩
        rw [walk_up, if_neg hroot, hr]
        simp only
        exact ⟨_, by rw [walk_up, if_pos (.inl hparent)]⟩

theorem Flat.checked (h : Flat nodes) : ∃ ok, check_tree nodes = .ok ok := by
  have hall : ∀ (l : List Int) (ok : List Int), (∀ i ∈ l, i ∈ nodes.keys) → ∃ ok',
      l.foldlM (fun ok start => do
        let path ← walk_up nodes ok start (nodes.items.length + 1) [] start
        Except.ok (ok ++ path)) ok = .ok ok' := by
    intro l
    induction l with
    | nil => exact fun ok _ => ⟨ok, rfl⟩
    | cons i l ih =>
        intro ok hl
        obtain ⟨v, hv⟩ := OrderedDict.mem_keys.mp (hl i List.mem_cons_self)
        obtain ⟨path, hpath⟩ := h.walks ok hv
        obtain ⟨ok', hok'⟩ := ih (ok ++ path) (fun j hj => hl j (List.mem_cons_of_mem _ hj))
        refine ⟨ok', ?_⟩
        rw [List.foldlM_cons, hpath]
        exact hok'
  exact hall nodes.keys [] (fun _ hi => hi)

/-- References to nodes that are there are placed, the last of a node's last. -/
theorem place_spec : ∀ (refs : List DibRef) (dib : Dibs),
    (∀ r ∈ refs, nodes.get r.node_index ≠ none) → (refs.map DibRef.node_index).Nodup →
    ∃ dib', refs.foldlM (place_dib nodes) dib = .ok dib' ∧
      (∀ r ∈ refs, dib'.get r.node_index = some r) ∧
        ∀ i, (∀ r ∈ refs, r.node_index ≠ i) → dib'.get i = dib.get i
  | [], dib, _, _ => ⟨dib, rfl, nofun, fun _ _ => rfl⟩
  | r :: refs, dib, hthere, hnd => by
      rw [List.map_cons, List.nodup_cons] at hnd
      obtain ⟨v, hv⟩ := Option.ne_none_iff_exists'.mp (hthere r List.mem_cons_self)
      obtain ⟨dib', heq, hrefs, hothers⟩ := place_spec refs (dib.set r.node_index r)
        (fun e he => hthere e (List.mem_cons_of_mem _ he)) hnd.2
      refine ⟨dib', ?_, fun e he => ?_, fun i hi => ?_⟩
      · rw [List.foldlM_cons, place_dib, hv]
        exact heq
      · rcases List.mem_cons.mp he with rfl | he
        · have hne : ∀ e' ∈ refs, e'.node_index ≠ e.node_index := fun e' he' heq =>
            hnd.1 (heq ▸ List.mem_map_of_mem he')
          rw [hothers _ hne, OrderedDict.get_set, if_pos rfl]
        · exact hrefs e he
      · rw [hothers i (fun e he => hi e (List.mem_cons_of_mem _ he)), OrderedDict.get_set,
          if_neg (fun heq => hi r List.mem_cons_self heq.symm)]

end

end Secdogie.Dialogue
