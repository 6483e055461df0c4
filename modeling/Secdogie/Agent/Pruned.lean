/-
# `Secdogie.Agent.Pruned` — the perceived tree, and the tree it was taken from

The elements are the pre-order of a forest, with the depths of the forest.  The
parent that is found for an element that stays is the nearest one before it
that stays and is less deep.  That is its nearest ancestor that stays, unless
one that is less deep stands between the two: below a placeholder, the
elements may be deeper than what is beside the placeholder (`perceived_iff`).
-/
import Secdogie.Agent.Adapter
import Secdogie.Lib.MapOption
import Secdogie.Lib.ParentWalk

namespace Secdogie.Agent.Adapter

/-- A first tree, the forest below its root, and the trees after it. -/
inductive Forest where
  | nil
  | cons (el : AxElement) (children siblings : Forest)

namespace Forest

def preorder : Forest → List AxElement
  | nil => []
  | cons el children siblings => el :: (children.preorder ++ siblings.preorder)

/-- The depths of the elements are those of the forest, from `d` on. -/
def Recorded (d : ℤ) : Forest → Prop
  | nil => True
  | cons el children siblings => el.depth = d ∧ children.Recorded (d + 1) ∧ siblings.Recorded d

/-- For each element that is kept, the nearest of its ancestors that is: the place among the
kept elements, of which `n` come before the forest; `up` is the nearest above it. -/
def keptParents (keeps : AxElement → Bool) (n : ℕ) (up : Option ℕ) : Forest → List (Option ℕ)
  | nil => []
  | cons el children siblings =>
      if keeps el then
        up :: (children.keptParents keeps (n + 1) (some n) ++
          siblings.keptParents keeps (n + 1 + children.preorder.countP keeps) up)
      else
        children.keptParents keeps n up ++
          siblings.keptParents keeps (n + children.preorder.countP keeps) up

variable {keeps : AxElement → Bool}

theorem length_keptParents (f : Forest) (n : ℕ) (up : Option ℕ) :
    (f.keptParents keeps n up).length = f.preorder.countP keeps := by
  induction f generalizing n up with
  | nil => rfl
  | cons el children siblings ihc ihs =>
      rw [keptParents, preorder, List.countP_cons, List.countP_append]
      by_cases hel : keeps el = true
      · rw [if_pos hel, if_pos hel, List.length_cons, List.length_append, ihc, ihs]
      · rw [if_neg hel, if_neg hel, List.length_append, ihc, ihs, Nat.add_zero]

theorem Recorded.le_depth {f : Forest} {d : ℤ} (h : f.Recorded d) {el : AxElement}
    (hel : el ∈ f.preorder) : d ≤ el.depth := by
  induction f generalizing d with
  | nil => exact nomatch hel
  | cons root children siblings ihc ihs =>
      obtain ⟨hroot, hchildren, hsiblings⟩ := h
      rcases List.mem_cons.mp hel with rfl | hmem
      · exact hroot.ge
      · rcases List.mem_append.mp hmem with hmem | hmem
        · have := ihc hchildren hmem
          omega
        · exact ihs hsiblings hmem

/-- By induction on the forest: the nearest kept ancestor is above the forest, or comes before the
element in it and is less deep. -/
theorem keptParents_spec {f : Forest} {d : ℤ} (h : f.Recorded d) (n : ℕ) (up : Option ℕ) {k : ℕ}
    {r : Option ℕ} {el : AxElement} (hr : (f.keptParents keeps n up)[k]? = some r)
    (hel : (f.preorder.filter keeps)[k]? = some el) :
    r = up ∨ ∃ a c, r = some (n + a) ∧ a < k ∧ (f.preorder.filter keeps)[a]? = some c ∧
      c.depth < el.depth := by
  induction f generalizing d n up k with
  | nil => exact nomatch hr
  | cons root children siblings ihc ihs =>
      obtain ⟨hroot, hchildren, hsiblings⟩ := h
      have hcount : (children.preorder.filter keeps).length = children.preorder.countP keeps :=
        List.countP_eq_length_filter.symm
      rw [preorder] at hel ⊢
      rw [keptParents] at hr
      by_cases hkeeps : keeps root = true
      · rw [if_pos hkeeps] at hr
        rw [List.filter_cons_of_pos hkeeps, List.filter_append] at hel ⊢
        cases k with
        | zero =>
            cases hr
            exact .inl rfl
        | succ k =>
            rw [List.getElem?_cons_succ] at hr hel
            by_cases hk : k < children.preorder.countP keeps
            · rw [List.getElem?_append_left (by rw [length_keptParents]; exact hk)] at hr
              rw [List.getElem?_append_left (by rw [hcount]; exact hk)] at hel
              have hmem := List.mem_of_mem_filter (List.mem_of_getElem? hel)
              have hdeep := hchildren.le_depth hmem
              rcases ihc hchildren (n + 1) (some n) hr hel with rfl | ⟨a, c, rfl, ha, hc, hlt⟩
              · exact .inr ⟨0, root, rfl, Nat.succ_pos k, rfl, by omega⟩
              · refine .inr ⟨a + 1, c, congrArg some (by omega), Nat.succ_lt_succ ha, ?_, hlt⟩
                rw [List.getElem?_cons_succ, List.getElem?_append_left (by omega)]
                exact hc
            · rw [List.getElem?_append_right (by rw [length_keptParents]; omega),
                length_keptParents] at hr
              rw [List.getElem?_append_right (by rw [hcount]; omega), hcount] at hel
              rcases ihs hsiblings _ up hr hel with rfl | ⟨a, c, rfl, ha, hc, hlt⟩
              · exact .inl rfl
              · refine .inr ⟨children.preorder.countP keeps + a + 1, c,
                  congrArg some (by omega), by omega, ?_, hlt⟩
                rw [List.getElem?_cons_succ, List.getElem?_append_right (by omega), hcount,
                  Nat.add_sub_cancel_left]
                exact hc
      · rw [if_neg hkeeps] at hr
        rw [List.filter_cons_of_neg hkeeps, List.filter_append] at hel ⊢
        by_cases hk : k < children.preorder.countP keeps
        · rw [List.getElem?_append_left (by rw [length_keptParents]; exact hk)] at hr
          rw [List.getElem?_append_left (by rw [hcount]; exact hk)] at hel
          rcases ihc hchildren n up hr hel with rfl | ⟨a, c, rfl, ha, hc, hlt⟩
          · exact .inl rfl
          · refine .inr ⟨a, c, rfl, ha, ?_, hlt⟩
            rw [List.getElem?_append_left (by omega)]
            exact hc
        · rw [List.getElem?_append_right (by rw [length_keptParents]; omega),
            length_keptParents] at hr
          rw [List.getElem?_append_right (by rw [hcount]; omega), hcount] at hel
          rcases ihs hsiblings _ up hr hel with rfl | ⟨a, c, rfl, ha, hc, hlt⟩
          · exact .inl rfl
          · refine .inr ⟨children.preorder.countP keeps + a, c, congrArg some (by omega), by omega,
              ?_, hlt⟩
            rw [List.getElem?_append_right (by omega), hcount, Nat.add_sub_cancel_left]
            exact hc

end Forest

/-! ## The nodes that are built -/

/-- How many nodes before the place `i` have that parent. -/
def ordinalOf (nodes : List SemanticNode) (i : ℕ) (parent : Option ℕ) : ℕ :=
  (nodes.take i).countP fun node => decide (node.parent_index = parent)

def pathOf (nodes : List SemanticNode) (parent : Option ℕ) : List ℕ :=
  parent.elim [] fun p => (nodes[p]?).elim [] SemanticNode.path_index

/-- The node that is built for an element. -/
def nodeOf (casefold : String → String) (policy : FilterPolicy) (nodes : List SemanticNode)
    (el : AxElement) (parent : Option ℕ) (ordinal : ℕ) : SemanticNode :=
  { semantic_node_from el with
    depth := (pathOf nodes parent ++ [ordinal]).length - 1
    path_index := pathOf nodes parent ++ [ordinal]
    parent_index := parent
    is_interactive := policy.is_interactive casefold el.role }

theorem buildFrom_cons (casefold : String → String) (policy : FilterPolicy)
    (nodes : List SemanticNode) (counts : Option ℕ → ℕ) (el : AxElement) (parent : Option ℕ)
    (rest : List (AxElement × Option ℕ)) :
    buildFrom casefold policy nodes counts ((el, parent) :: rest) =
      buildFrom casefold policy (nodes ++ [nodeOf casefold policy nodes el parent (counts parent)])
        (Function.update counts parent (counts parent + 1)) rest := by
  cases parent with
  | none => rfl
  | some p => rfl

/-- The path and the depth of a node are those of its parent, that comes before it, and its place
among the children. -/
structure Placed (nodes : List SemanticNode) (i : ℕ) (node : SemanticNode) : Prop where
  earlier : ∀ p ∈ node.parent_index, p < i
  path : node.path_index = pathOf nodes node.parent_index ++ [ordinalOf nodes i node.parent_index]
  depth : node.depth = (pathOf nodes node.parent_index).length

def Structured (nodes : List SemanticNode) : Prop :=
  ∀ (i : ℕ) node, nodes[i]? = some node → Placed nodes i node

section

variable {nodes : List SemanticNode} {i : ℕ} {node : SemanticNode}

theorem Placed.append (h : Placed nodes i node) (hi : i < nodes.length) (more : List SemanticNode) :
    Placed (nodes ++ more) i node := by
  have hpath : pathOf (nodes ++ more) node.parent_index = pathOf nodes node.parent_index := by
    cases hparent : node.parent_index with
    | none => rfl
    | some p =>
        have hp := h.earlier p hparent
        rw [pathOf, pathOf, Option.elim_some, Option.elim_some, List.getElem?_append_left (by omega)]
  have hordinal : ordinalOf (nodes ++ more) i node.parent_index =
      ordinalOf nodes i node.parent_index := by
    rw [ordinalOf, ordinalOf, List.take_append_of_le_length hi.le]
  refine ⟨h.earlier, ?_, ?_⟩
  · rw [hpath, hordinal]
    exact h.path
  · rw [hpath]
    exact h.depth

theorem Structured.append (h : Structured nodes)
    (hnode : Placed (nodes ++ [node]) nodes.length node) : Structured (nodes ++ [node]) := by
  intro i node' hi
  by_cases hlt : i < nodes.length
  · rw [List.getElem?_append_left hlt] at hi
    exact (h i node' hi).append hlt [node]
  · have hle := (List.getElem?_eq_some_iff.mp hi).1
    rw [List.length_append, List.length_singleton] at hle
    obtain rfl : i = nodes.length := by omega
    rw [List.getElem?_concat_length] at hi
    cases hi
    exact hnode

/-- What a node has of its element. -/
def content (node : SemanticNode) : SemanticNode :=
  { node with depth := 0, path_index := [], parent_index := none, is_interactive := false }

/-- By induction on the elements that are left. -/
theorem buildFrom_spec (casefold : String → String) (policy : FilterPolicy) :
    ∀ (rest : List (AxElement × Option ℕ)) (nodes : List SemanticNode) (counts : Option ℕ → ℕ),
      Structured nodes →
      (∀ p, counts p = nodes.countP fun node => decide (node.parent_index = p)) →
      (∀ (k : ℕ) el p, rest[k]? = some (el, some p) → p < nodes.length + k) →
      Structured (buildFrom casefold policy nodes counts rest) ∧
      (buildFrom casefold policy nodes counts rest).map content =
        nodes.map content ++ rest.map (fun r => semantic_node_from r.1) ∧
      (buildFrom casefold policy nodes counts rest).map SemanticNode.parent_index =
        nodes.map SemanticNode.parent_index ++ rest.map Prod.snd
  | [], nodes, counts, hnodes, _, _ => by
      rw [buildFrom, List.map_nil, List.map_nil, List.append_nil, List.append_nil]
      exact ⟨hnodes, rfl, rfl⟩
  | (el, parent) :: rest, nodes, counts, hnodes, hcounts, hearlier => by
      rw [buildFrom_cons]
      generalize hnode : nodeOf casefold policy nodes el parent (counts parent) = node
      have hparent : node.parent_index = parent := by rw [← hnode]; rfl
      have hcontent : content node = semantic_node_from el := by rw [← hnode]; rfl
      have hordinal : ordinalOf (nodes ++ [node]) nodes.length parent = counts parent := by
        rw [ordinalOf, List.take_left, hcounts]
      have hpathOf : pathOf (nodes ++ [node]) parent = pathOf nodes parent := by
        cases parent with
        | none => rfl
        | some p =>
            have hp : p < nodes.length := hearlier 0 el p rfl
            rw [pathOf, pathOf, Option.elim_some, Option.elim_some, List.getElem?_append_left hp]
      have hplaced : Placed (nodes ++ [node]) nodes.length node := by
        refine ⟨fun p hp => ?_, ?_, ?_⟩
        · rw [hparent] at hp
          cases hp
          exact hearlier 0 el p rfl
        · rw [hparent, hordinal, hpathOf, ← hnode]
          rfl
        · rw [hparent, hpathOf, ← hnode, nodeOf]
          dsimp only
          rw [List.length_append, List.length_singleton]
          omega
      have hcounts' : ∀ p, Function.update counts parent (counts parent + 1) p =
          (nodes ++ [node]).countP fun node => decide (node.parent_index = p) := by
        intro p
        rw [List.countP_append, List.countP_singleton, hparent]
        by_cases heq : p = parent
        · rw [heq, Function.update_self, hcounts, if_pos (decide_eq_true rfl)]
        · rw [Function.update_of_ne heq, hcounts, if_neg]
          · rfl
          · exact fun htrue => heq (of_decide_eq_true htrue).symm
      have hearlier' : ∀ (k : ℕ) el p, rest[k]? = some (el, some p) →
          p < (nodes ++ [node]).length + k := by
        intro k el' p hk
        have hp := hearlier (k + 1) el' p hk
        rw [List.length_append, List.length_singleton]
        omega
      obtain ⟨hstructured, hcontents, hparents⟩ := buildFrom_spec casefold policy rest
        (nodes ++ [node]) _ (hnodes.append hplaced) hcounts' hearlier'
      refine ⟨hstructured, ?_, ?_⟩
      · rw [hcontents, List.map_append, List.append_assoc, List.map_cons, List.map_nil, hcontent]
        rfl
      · rw [hparents, List.map_append, List.append_assoc, List.map_cons, List.map_nil, hparent]
        rfl

/-! ## The paths -/

theorem Placed.path_ne_nil (h : Placed nodes i node) : node.path_index ≠ [] := by
  rw [h.path]
  exact List.append_ne_nil_of_right_ne_nil _ (List.cons_ne_nil _ _)

/-- The children of a node are counted as they come. -/
theorem ordinalOf_lt {j : ℕ} (hi : nodes[i]? = some node) (hij : i < j) :
    ordinalOf nodes i node.parent_index < ordinalOf nodes j node.parent_index := by
  have hlt := (List.getElem?_eq_some_iff.mp hi).1
  have htake : nodes.take (i + 1) = nodes.take i ++ [node] := by
    rw [List.take_add_one, hi]
    rfl
  have hle : ordinalOf nodes (i + 1) node.parent_index ≤ ordinalOf nodes j node.parent_index :=
    List.Sublist.countP_le (List.take_sublist_take_left hij)
  have hnext : ordinalOf nodes (i + 1) node.parent_index =
      ordinalOf nodes i node.parent_index + 1 := by
    rw [ordinalOf, ordinalOf, htake, List.countP_append, List.countP_singleton,
      if_pos (decide_eq_true rfl)]
  omega

theorem Structured.parent (h : Structured nodes) (hi : nodes[i]? = some node) {p : ℕ}
    (hp : node.parent_index = some p) :
    ∃ up, p < i ∧ nodes[p]? = some up ∧ pathOf nodes node.parent_index = up.path_index := by
  have hlt := (h i node hi).earlier p hp
  have hlen := (List.getElem?_eq_some_iff.mp hi).1
  obtain ⟨up, hup⟩ : ∃ up, nodes[p]? = some up := ⟨_, List.getElem?_eq_getElem (by omega)⟩
  refine ⟨up, hlt, hup, ?_⟩
  rw [hp, pathOf, Option.elim_some, hup, Option.elim_some]

/-- By induction on the place: two places with one path are the same. -/
theorem Structured.path_inj (h : Structured nodes) : ∀ (i j : ℕ) node node', nodes[i]? = some node →
    nodes[j]? = some node' → node.path_index = node'.path_index → i = j := by
  intro i
  induction i using Nat.strong_induction_on with
  | _ i ih =>
      intro j node node' hi hj hpath
      have hplaced := h i node hi
      have hplaced' := h j node' hj
      rw [hplaced.path, hplaced'.path] at hpath
      obtain ⟨hup', hordinal⟩ := List.append_inj' hpath rfl
      have hordinal := (List.cons.inj hordinal).1
      have hparent : node.parent_index = node'.parent_index := by
        cases hp : node.parent_index with
        | none =>
            cases hq : node'.parent_index with
            | none => rfl
            | some q =>
                obtain ⟨up, -, hup, hpathOf⟩ := h.parent hj hq
                rw [hpathOf, hp] at hup'
                exact absurd hup'.symm (h q up hup).path_ne_nil
        | some p =>
            obtain ⟨up, hlt, hup, hpathOf⟩ := h.parent hi hp
            rw [hpathOf] at hup'
            cases hq : node'.parent_index with
            | none =>
                rw [hq] at hup'
                exact absurd hup' (h p up hup).path_ne_nil
            | some q =>
                obtain ⟨up', -, hq', hpathOf'⟩ := h.parent hj hq
                rw [hpathOf'] at hup'
                exact congrArg some (ih p hlt q up up' hup hq' hup')
      rcases Nat.lt_trichotomy i j with hlt | heq | hgt
      · have := ordinalOf_lt hi hlt
        rw [hparent] at this hordinal
        omega
      · exact heq
      · have := ordinalOf_lt hj hgt
        rw [hparent] at hordinal
        omega

theorem Structured.nodup_paths (h : Structured nodes) :
    (nodes.map SemanticNode.path_index).Nodup := by
  rw [List.nodup_iff_injective_getElem]
  intro i j heq
  have hi : (i : ℕ) < nodes.length := i.isLt.trans_eq (List.length_map _)
  have hj : (j : ℕ) < nodes.length := j.isLt.trans_eq (List.length_map _)
  dsimp only at heq
  rw [List.getElem_map, List.getElem_map] at heq
  exact Fin.ext (h.path_inj i j _ _ (List.getElem?_eq_getElem hi) (List.getElem?_eq_getElem hj) heq)

/-! ## The tree that is nested -/

/-- The children, where the roots are those of `none`. -/
def kids (nodes : List SemanticNode) (p : Option ℕ) : List (Option ℕ) := (childrenOf nodes p).map some

def parentOf (nodes : List SemanticNode) : Option ℕ → Option (Option ℕ)
  | none => none
  | some i => (nodes[i]?).map SemanticNode.parent_index

theorem mem_childrenOf {p : Option ℕ} :
    i ∈ childrenOf nodes p ↔ (nodes[i]?).map SemanticNode.parent_index = some p := by
  rw [childrenOf, List.mem_filter, decide_eq_true_iff, List.mem_range]
  refine ⟨And.right, fun h => ⟨?_, h⟩⟩
  obtain ⟨node, hi, -⟩ := Option.map_eq_some_iff.mp h
  exact (List.getElem?_eq_some_iff.mp hi).1

theorem mem_kids (nodes : List SemanticNode) (a c : Option ℕ) :
    c ∈ kids nodes a ↔ parentOf nodes c = some a := by
  rw [kids, List.mem_map]
  cases c with
  | none => exact ⟨(fun ⟨_, _, heq⟩ => nomatch heq), nofun⟩
  | some i =>
      rw [parentOf, ← mem_childrenOf]
      exact ⟨fun ⟨_, hj, heq⟩ => Option.some.inj heq ▸ hj, fun hi => ⟨i, hi, rfl⟩⟩

/-- A parent comes before its children. -/
theorem Structured.childrenOf_lt (h : Structured nodes) {p c : ℕ} (hc : c ∈ childrenOf nodes (some p)) :
    p < c := by
  obtain ⟨node, hnode, hparent⟩ := Option.map_eq_some_iff.mp (mem_childrenOf.mp hc)
  exact (h c node hnode).earlier p hparent

theorem Structured.not_onCycle (h : Structured nodes) (a : Option ℕ) :
    ¬ ParentWalk.OnCycle (parentOf nodes) a := by
  have habove : ∀ {x y : Option ℕ}, Relation.TransGen (ParentWalk.Up (parentOf nodes)) x y →
      ∃ i, x = some i ∧ ∀ j, y = some j → j < i := by
    intro x y hxy
    have hstep : ∀ {x y : Option ℕ}, ParentWalk.Up (parentOf nodes) x y →
        ∃ i, x = some i ∧ ∀ j, y = some j → j < i := by
      intro x y hup
      cases x with
      | none => exact nomatch hup
      | some i =>
          refine ⟨i, rfl, fun j hj => ?_⟩
          rw [hj] at hup
          exact h.childrenOf_lt (mem_childrenOf.mpr hup)
    induction hxy with
    | single hup => exact hstep hup
    | tail _ hup ih =>
        obtain ⟨i, rfl, hbefore⟩ := ih
        obtain ⟨k, hk, hbefore'⟩ := hstep hup
        refine ⟨i, rfl, fun j hj => ?_⟩
        have := hbefore k hk
        have := hbefore' j hj
        omega
  intro hcycle
  obtain ⟨i, rfl, hbefore⟩ := habove hcycle
  exact absurd (hbefore i rfl) (lt_irrefl i)

/-- What `make` nests is what the walk lists. -/
theorem make_listed : ∀ (deep : ℕ) (l : List ℕ) (trees : List UiTreeNode),
    l.mapM (make nodes deep) = some trees →
    ParentWalk.Listed (kids nodes) (l.map some) ((trees.flatMap UiTreeNode.walk).map some)
  | _, [], trees, h => by
      cases h
      exact .nil
  | 0, i :: l, trees, h => by
      rw [mapM_eq_some_iff] at h
      cases trees with
      | nil => exact nomatch h
      | cons t trees => exact nomatch (List.cons.inj h).1
  | deep + 1, i :: l, trees, h => by
      rw [mapM_eq_some_iff] at h
      cases trees with
      | nil => exact nomatch h
      | cons t trees =>
          obtain ⟨ht, hrest⟩ := List.cons.inj h
          have hl := make_listed (deep + 1) l trees (mapM_eq_some_iff.mpr hrest)
          rw [make] at ht
          obtain ⟨node, hnode, ht⟩ := Option.bind_eq_some_iff.mp ht
          obtain ⟨children, hchildren, ht⟩ := Option.bind_eq_some_iff.mp ht
          cases ht
          have hbelow := make_listed deep _ children hchildren
          rw [List.map_cons, List.flatMap_cons, List.map_append, UiTreeNode.walk, List.map_cons,
            List.cons_append]
          exact .cons (hbelow.append hl)
termination_by deep l => (deep, l.length)

/-- With recursion as deep as there are nodes, `make` returns. -/
theorem Structured.exists_make (h : Structured nodes) : ∀ (deep i : ℕ), i < nodes.length →
    nodes.length ≤ deep + i → ∃ t, make nodes deep i = some t
  | 0, i, hi, hdeep => by omega
  | deep + 1, i, hi, hdeep => by
      have hchildren : ∃ children, (childrenOf nodes (some i)).mapM (make nodes deep) =
          some children := by
        refine exists_mapM_iff.mpr fun c hc => ?_
        have hlt := h.childrenOf_lt hc
        obtain ⟨node, hnode, -⟩ := Option.map_eq_some_iff.mp (mem_childrenOf.mp hc)
        exact h.exists_make deep c (List.getElem?_eq_some_iff.mp hnode).1 (by omega)
      obtain ⟨children, hchildren⟩ := hchildren
      refine ⟨.mk i nodes[i] children, ?_⟩
      rw [make, List.getElem?_eq_getElem hi, hchildren]
      rfl

/-- Each node is below a root. -/
theorem Structured.below_root (h : Structured nodes) : ∀ (i : ℕ), i < nodes.length →
    ∃ a ∈ kids nodes none, Relation.ReflTransGen (fun c a => c ∈ kids nodes a) (some i) a := by
  intro i
  induction i using Nat.strong_induction_on with
  | _ i ih =>
      intro hi
      have hup : parentOf nodes (some i) = some nodes[i].parent_index := by
        rw [parentOf, List.getElem?_eq_getElem hi]
        rfl
      cases hp : nodes[i].parent_index with
      | none =>
          rw [hp] at hup
          exact ⟨some i, (mem_kids nodes none (some i)).mpr hup, .refl⟩
      | some p =>
          rw [hp] at hup
          have hlt := (h i nodes[i] (List.getElem?_eq_getElem hi)).earlier p hp
          obtain ⟨a, ha, hpath⟩ := ih p hlt (by omega)
          exact ⟨a, ha, hpath.head ((mem_kids nodes (some p) (some i)).mpr hup)⟩

theorem lt_of_mem_kids {a : Option ℕ} (h : some i ∈ kids nodes a) : i < nodes.length := by
  have hup := (mem_kids nodes a (some i)).mp h
  obtain ⟨node, hi, -⟩ := Option.map_eq_some_iff.mp hup
  exact (List.getElem?_eq_some_iff.mp hi).1

/-- Each node is listed once. -/
theorem Structured.build_tree (h : Structured nodes) {deep : ℕ} (hdeep : nodes.length ≤ deep) :
    ∃ trees, Adapter.build_tree nodes deep = some trees ∧
      (trees.flatMap UiTreeNode.walk).Perm (List.range nodes.length) := by
  have hexists : ∃ trees, (childrenOf nodes none).mapM (make nodes deep) = some trees := by
    refine exists_mapM_iff.mpr fun c hc => ?_
    obtain ⟨node, hnode, -⟩ := Option.map_eq_some_iff.mp (mem_childrenOf.mp hc)
    exact h.exists_make deep c (List.getElem?_eq_some_iff.mp hnode).1 (by omega)
  obtain ⟨trees, htrees⟩ := hexists
  have hlisted := make_listed deep _ trees htrees
  have hkidsnodup : ∀ a, (kids nodes a).Nodup := fun a =>
    ((List.nodup_range).filter _).map (Option.some_injective ℕ)
  have hnodup : ((trees.flatMap UiTreeNode.walk).map some).Nodup := by
    refine hlisted.nodup (mem_kids nodes) hkidsnodup (p := none) (fun a ha => ?_) (hkidsnodup none)
      fun a _ => h.not_onCycle a
    exact (mem_kids nodes none a).mp ha
  have hmem : ∀ j, j ∈ trees.flatMap UiTreeNode.walk ↔ j ∈ List.range nodes.length := by
    intro j
    rw [List.mem_range, ← List.mem_map_of_injective (Option.some_injective ℕ), hlisted.mem_iff]
    refine ⟨?_, h.below_root j⟩
    rintro ⟨a, ha, hpath⟩
    rcases hpath.cases_head with rfl | ⟨b, hb, -⟩
    · exact lt_of_mem_kids ha
    · exact lt_of_mem_kids hb
  exact ⟨trees, htrees, (List.perm_ext_iff_of_nodup (List.Nodup.of_map _ hnodup)
    List.nodup_range).mpr hmem⟩

end

/-! ## The two trees -/

/-- What is said of the perceived tree. -/
structure Perceived (casefold : String → String) (policy : FilterPolicy) (f : Forest) : Prop where
  /-- the kept elements, in their order -/
  kept : (build_nodes casefold f.preorder policy).1.map content =
    (f.preorder.filter policy.keeps).map semantic_node_from
  parent : (build_nodes casefold f.preorder policy).1.map SemanticNode.parent_index =
    f.keptParents policy.keeps 0 none
  distinct : ((build_nodes casefold f.preorder policy).1.map SemanticNode.path_index).Nodup
  structured : Structured (build_nodes casefold f.preorder policy).1
  tree : ∀ deep, (build_nodes casefold f.preorder policy).1.length ≤ deep →
    ∃ trees, build_tree (build_nodes casefold f.preorder policy).1 deep = some trees ∧
      (trees.flatMap UiTreeNode.walk).Perm
        (List.range (build_nodes casefold f.preorder policy).1.length)

/-- No kept element that is less deep stands between a kept element and its nearest kept
ancestor, or before it if there is none. -/
def Nested (keeps : AxElement → Bool) (f : Forest) : Prop :=
  ∀ (i j : ℕ) el el' up, (f.preorder.filter keeps)[i]? = some el →
    (f.keptParents keeps 0 none)[i]? = some up → j < i → (∀ a ∈ up, a < j) →
    (f.preorder.filter keeps)[j]? = some el' → el.depth ≤ el'.depth

section

variable {casefold : String → String} {policy : FilterPolicy} {f : Forest} {d : ℤ}

/-- With all depths recorded, the parents are the nearest that are less deep. -/
theorem build_nodes_eq (hd : 0 ≤ d) (hf : f.Recorded d) :
    (build_nodes casefold f.preorder policy).1 = buildFrom casefold policy [] (fun _ => 0)
      ((f.preorder.filter policy.keeps).zip
        (_parents_from_depth (f.preorder.filter policy.keeps))) := by
  have hrecorded : ((f.preorder.filter policy.keeps).any fun el => decide (el.depth < 0)) =
      false := by
    rw [List.any_eq_false]
    intro el hel hneg
    have hle := hf.le_depth (List.mem_of_mem_filter hel)
    have := of_decide_eq_true hneg
    omega
  rw [build_nodes]
  dsimp only
  rw [hrecorded, if_neg Bool.false_ne_true]

theorem length_parents (elements : List AxElement) :
    (_parents_from_depth elements).length = elements.length := by
  rw [_parents_from_depth, nearestLess, length_nearestLessFrom, List.length_map]

theorem structured_nil : Structured [] := by
  intro i node hi
  exact nomatch hi

/-- The nodes of elements whose parents are found by their depths. -/
theorem built_from_depth (casefold : String → String) (policy : FilterPolicy)
    (elements : List AxElement) :
    Structured (buildFrom casefold policy [] (fun _ => 0)
      (elements.zip (_parents_from_depth elements))) ∧
    (buildFrom casefold policy [] (fun _ => 0)
      (elements.zip (_parents_from_depth elements))).map content =
        elements.map semantic_node_from ∧
    (buildFrom casefold policy [] (fun _ => 0)
      (elements.zip (_parents_from_depth elements))).map SemanticNode.parent_index =
        _parents_from_depth elements := by
  have hlength := length_parents elements
  have hearlier : ∀ (k : ℕ) el p, (elements.zip (_parents_from_depth elements))[k]? =
      some (el, some p) → p < ([] : List SemanticNode).length + k := by
    intro k el p hk
    obtain ⟨hel, hp⟩ := List.getElem?_zip_eq_some.mp hk
    have hdepth : (elements.map AxElement.depth)[k]? = some el.depth := by
      rw [List.getElem?_map, hel]
      rfl
    obtain ⟨r, hr, hnearest⟩ := nearestLess_spec hdepth
    rw [_parents_from_depth, hr] at hp
    cases hp
    rw [List.length_nil, Nat.zero_add]
    exact (hnearest.less p rfl).1
  have hcounts : ∀ p : Option ℕ, (fun _ => 0 : Option ℕ → ℕ) p =
      ([] : List SemanticNode).countP fun node => decide (node.parent_index = p) :=
    fun p => List.countP_nil.symm
  obtain ⟨hstructured, hcontent, hparents⟩ := buildFrom_spec casefold policy
    (elements.zip (_parents_from_depth elements)) [] (fun _ => 0) structured_nil hcounts hearlier
  refine ⟨hstructured, ?_, ?_⟩
  · rw [hcontent, List.map_nil, List.nil_append]
    have hfst := congrArg (List.map semantic_node_from) (List.map_fst_zip hlength.ge)
    rw [List.map_map] at hfst
    exact hfst
  · rw [hparents, List.map_nil, List.nil_append]
    exact List.map_snd_zip hlength.le

/-- The nearest kept ancestor is the nearest that is less deep, if no other is. -/
theorem parents_eq_iff {keeps : AxElement → Bool} (hf : f.Recorded d) :
    _parents_from_depth (f.preorder.filter keeps) = f.keptParents keeps 0 none ↔
      Nested keeps f := by
  have hnearest : ∀ {i : ℕ} {el : AxElement}, (f.preorder.filter keeps)[i]? = some el →
      ∃ r, (_parents_from_depth (f.preorder.filter keeps))[i]? = some r ∧
        IsNearestLess ((f.preorder.filter keeps).map AxElement.depth) el.depth i r := by
    intro i el hel
    refine nearestLess_spec ?_
    rw [List.getElem?_map, hel]
    rfl
  constructor
  · intro heq i j el el' up hel hup hj hafter hel'
    obtain ⟨r, hr, hless⟩ := hnearest hel
    rw [heq, hup] at hr
    cases hr
    refine hless.nearest j el'.depth hj hafter ?_
    rw [List.getElem?_map, hel']
    rfl
  · intro hnested
    have hlength : (f.keptParents keeps 0 none).length = (f.preorder.filter keeps).length := by
      rw [Forest.length_keptParents, List.countP_eq_length_filter]
    refine List.ext_getElem? fun i => ?_
    by_cases hi : i < (f.preorder.filter keeps).length
    · have hel := List.getElem?_eq_getElem hi
      have hup := List.getElem?_eq_getElem (hlength.symm ▸ hi)
      obtain ⟨r, hr, hless⟩ := hnearest hel
      have hancestor : IsNearestLess ((f.preorder.filter keeps).map AxElement.depth)
          (f.preorder.filter keeps)[i].depth i (f.keptParents keeps 0 none)[i] := by
        refine ⟨fun a ha => ?_, fun j c hj hafter hc => ?_⟩
        · rcases Forest.keptParents_spec hf 0 none hup hel with hnone | ⟨b, c, hb, hbi, hc, hlt⟩
          · rw [hnone] at ha
            exact nomatch ha
          · rw [hb] at ha
            cases ha
            refine ⟨by omega, c.depth, ?_, hlt⟩
            rw [List.getElem?_map, Nat.zero_add, hc]
            rfl
        · rw [List.getElem?_map] at hc
          obtain ⟨el', hel', rfl⟩ := Option.map_eq_some_iff.mp hc
          exact hnested i j _ el' _ hel hup hj hafter hel'
      rw [hr, hup, hless.unique hancestor]
    · rw [List.getElem?_eq_none (by rw [length_parents]; omega),
        List.getElem?_eq_none (by rw [hlength]; omega)]

/-- **The perceived tree is the real one without its placeholders** just when no kept element
stands, less deep, between a kept element and its nearest kept ancestor. -/
theorem perceived_iff (casefold : String → String) (policy : FilterPolicy) (f : Forest) (d : ℤ)
    (hd : 0 ≤ d) (hf : f.Recorded d) :
    Perceived casefold policy f ↔ Nested policy.keeps f := by
  obtain ⟨hstructured, hcontent, hparents⟩ :=
    built_from_depth casefold policy (f.preorder.filter policy.keeps)
  rw [← build_nodes_eq hd hf] at hstructured hcontent hparents
  rw [← parents_eq_iff hf]
  constructor
  · intro h
    rw [← hparents, h.parent]
  · intro heq
    exact ⟨hcontent, hparents.trans heq, hstructured.nodup_paths, hstructured, fun deep hdeep =>
      hstructured.build_tree hdeep⟩

end

namespace Sample

def element (name : String) (depth : ℤ) : AxElement :=
  ⟨"Pane", name, "", ⟨0, 0, 0, 0⟩, depth, "", "", none⟩

/-- A window with a pane, and a placeholder with a pane in it. -/
def window : Forest :=
  .cons (element "window" 0)
    (.cons (element "left" 1) .nil (.cons (element "" 1) (.cons (element "right" 2) .nil .nil) .nil))
    .nil

theorem recorded : window.Recorded 0 := by
  refine ⟨rfl, ⟨rfl, trivial, rfl, ⟨rfl, trivial, trivial⟩, trivial⟩, trivial⟩

def pruning : FilterPolicy where
  interactive_roles := []
  blind_roles := []
  opaque_leaf_roles := []

end Sample

theorem perceived_iff_window :
    Perceived id Sample.pruning Sample.window ↔ Nested Sample.pruning.keeps Sample.window :=
  perceived_iff id Sample.pruning Sample.window 0 le_rfl Sample.recorded

/-- The pane below the placeholder is put below the pane beside it. -/
theorem reattached_to_sibling :
    (build_nodes id Sample.window.preorder Sample.pruning).1.map SemanticNode.parent_index =
        [none, some 0, some 1] ∧
      Sample.window.keptParents Sample.pruning.keeps 0 none = [none, some 0, some 0] ∧
      ¬ Perceived id Sample.pruning Sample.window := by
  have hbuilt : (build_nodes id Sample.window.preorder Sample.pruning).1.map
      SemanticNode.parent_index = [none, some 0, some 1] := by decide
  have hreal : Sample.window.keptParents Sample.pruning.keeps 0 none = [none, some 0, some 0] := by
    decide
  refine ⟨hbuilt, hreal, fun h => ?_⟩
  have hparent := h.parent
  rw [hbuilt, hreal] at hparent
  exact nomatch hparent

end Secdogie.Agent.Adapter
