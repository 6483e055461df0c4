/-
# `Secdogie.Dialogue.Inspected` — the inspector on packets that do not fit

What it holds is a forest: `check_tree` accepts just the forests
(`check_tree_iff`), and on a forest the rows are each held node once, under
its parent (`exists_rows`).  A delta is patched change by change before that
check, so the maps in between may be anything; a removal ends unless the
removed node lies on a cycle of parents in the map at that point
(`subtree_endless_iff`), and then no number of steps is enough.
-/
import Secdogie.Dialogue.Inspector
import Secdogie.Lib.Along
import Secdogie.Lib.ParentWalk

namespace Secdogie.Dialogue

open ParentWalk Relation

/-! ## Rows -/

structure Row where
  depth : ℕ
  index : Int
  label : String
  focused : Bool
  enabled : Bool
  dib : Option DibRef

def MAX_LABEL : ℕ := 120

/-- `clean`; `control` is whether the character's category starts with C. -/
def clean (control : Char → Bool) (text : String) (limit : ℕ) : String :=
  let out := text.toList.map fun c => if control c then ' ' else c
  if out.length ≤ limit then String.ofList out else String.ofList (out.take (limit - 1) ++ ['…'])

/-- The row of a node. -/
def row (control : Char → Bool) (state : InspectorState) (i : Int) (depth : ℕ) (n : NodeView) : Row where
  depth
  index := i
  label := clean control (if n.name ≠ "" then n.role ++ " \"" ++ n.name ++ "\"" else n.role) MAX_LABEL
  focused := i = state.focused
  enabled := n.enabled
  dib := state.dib.get i

/-- The loop of `rows`, with the number of steps left. -/
def rows_loop (control : Char → Bool) (state : InspectorState) :
    ℕ → List (Int × ℕ) → List Row → Option (List Row)
  | _, [], out => some out
  | 0, _ :: _, _ => none
  | k + 1, (i, depth) :: stack, out =>
      match state.nodes.get i with
      | none => none
      | some n =>
          rows_loop control state k (withDepth (childrenOf state.nodes) (i, depth) ++ stack)
            (out ++ [row control state i depth n])

/-- `rows` -/
def rows (control : Char → Bool) (state : InspectorState) : Option (List Row) :=
  rows_loop control state state.nodes.items.length
    ((childrenOf state.nodes (-1)).map fun i => (i, 0)) []

/-! ## The parents -/

/-- The parent that a held node names. -/
def parentOf (nodes : Nodes) (i : Int) : Option Int := (nodes.get i).map NodeView.parent_index

/-- Every parent exists or is -1, and there is no cycle. -/
structure Forest (nodes : Nodes) : Prop where
  parent : ∀ i n, nodes.get i = some n →
    n.parent_index = -1 ∨ ∃ m, nodes.get n.parent_index = some m
  acyclic : ∀ i, ¬ OnCycle (parentOf nodes) i

/-- Each node is held under its index. -/
def Keyed (nodes : Nodes) : Prop := ∀ i n, nodes.get i = some n → n.index = i ∧ 0 ≤ i

variable {nodes nodes' : Nodes} {i p : Int} {n : NodeView}

theorem parentOf_eq_some : parentOf nodes i = some p ↔ ∃ n, nodes.get i = some n ∧ n.parent_index = p :=
  Option.map_eq_some_iff

theorem parentOf_eq_none : parentOf nodes i = none ↔ nodes.get i = none := Option.map_eq_none_iff

theorem finite_held (nodes : Nodes) : {i | parentOf nodes i ≠ none}.Finite := by
  refine (List.finite_toSet nodes.keys).subset fun i hi => ?_
  by_contra hmem
  exact hi (parentOf_eq_none.mpr (OrderedDict.get_eq_none_iff.mpr hmem))

theorem Keyed.root (h : Keyed nodes) : parentOf nodes (-1) = none := by
  rw [parentOf_eq_none, Option.eq_none_iff_forall_ne_some]
  intro n hn
  exact absurd (h _ n hn).2 (by decide)

theorem Keyed.mem_childrenOf (h : Keyed nodes) (p i : Int) :
    i ∈ childrenOf nodes p ↔ parentOf nodes i = some p := by
  rw [childrenOf, parentOf_eq_some, List.mem_map]
  constructor
  · rintro ⟨n, hn, rfl⟩
    obtain ⟨hn, hp⟩ := List.mem_filter.mp hn
    obtain ⟨j, hj⟩ := OrderedDict.mem_values.mp hn
    rw [(h j n hj).1]
    exact ⟨n, hj, of_decide_eq_true hp⟩
  · rintro ⟨n, hn, hp⟩
    exact ⟨n, List.mem_filter.mpr ⟨OrderedDict.mem_values.mpr ⟨i, hn⟩, decide_eq_true hp⟩, (h i n hn).1⟩

theorem Keyed.map_values (h : Keyed nodes) : nodes.values.map NodeView.index = nodes.keys := by
  rw [OrderedDict.values, OrderedDict.keys, List.map_map]
  refine List.map_congr_left fun e he => ?_
  exact (h e.1 e.2 (OrderedDict.get_eq_some_iff.mpr he)).1

theorem Keyed.nodup_childrenOf (h : Keyed nodes) (p : Int) : (childrenOf nodes p).Nodup := by
  refine List.Nodup.sublist (List.filter_sublist.map _) ?_
  rw [h.map_values]
  exact nodes.nodup_keys

theorem Keyed.mem_reverse_childrenOf (h : Keyed nodes) (p i : Int) :
    i ∈ (childrenOf nodes p).reverse ↔ parentOf nodes i = some p :=
  List.mem_reverse.trans (h.mem_childrenOf p i)

/-- A forest is where each way up ends at -1. -/
theorem Keyed.forest_iff (h : Keyed nodes) :
    Forest nodes ↔ ∀ i n, nodes.get i = some n → ReflTransGen (Up (parentOf nodes)) i (-1) := by
  constructor
  · intro hforest i n hn
    obtain ⟨r, hir, hr⟩ := exists_root (finite_held nodes) hforest.acyclic i
    rcases ReflTransGen.cases_tail hir with rfl | ⟨q, hiq, hqr⟩
    · exact nomatch hn.symm.trans (parentOf_eq_none.mp hr)
    · obtain ⟨m, hm, rfl⟩ := parentOf_eq_some.mp hqr
      rcases hforest.parent q m hm with htop | ⟨u, hu⟩
      · rwa [htop] at hir
      · exact nomatch hu.symm.trans (parentOf_eq_none.mp hr)
  · intro hup
    refine ⟨fun i n hn => ?_, fun i hcycle => ?_⟩
    · rcases ReflTransGen.cases_head (hup i n hn) with rfl | ⟨q, hq, hqtop⟩
      · exact absurd (h _ n hn).2 (by decide)
      · obtain ⟨n', hn', rfl⟩ := parentOf_eq_some.mp hq
        obtain rfl := Option.some.inj (hn.symm.trans hn')
        rcases ReflTransGen.cases_head hqtop with htop | ⟨r, hr, -⟩
        · exact .inl htop
        · obtain ⟨m, hm, -⟩ := parentOf_eq_some.mp hr
          exact .inr ⟨m, hm⟩
    · obtain ⟨q, hq, -⟩ := TransGen.head'_iff.mp hcycle
      obtain ⟨n, hn, -⟩ := parentOf_eq_some.mp hq
      exact not_onCycle_of_root h.root (hup i n hn) hcycle

/-- A list without repetition of held nodes is no longer than the map. -/
theorem length_le_of_held {l : List Int} (hnodup : l.Nodup) (hheld : ∀ i ∈ l, ∃ n, nodes.get i = some n) :
    l.length ≤ nodes.items.length := by
  have hsub : l ⊆ nodes.keys := fun i hi => OrderedDict.mem_keys.mpr (hheld i hi)
  have hle := (List.subperm_of_subset hnodup hsub).length_le
  rwa [OrderedDict.keys, List.length_map] at hle

/-! ## Removals -/

/-- The nodes that a walk from a node lists, in the order of the stack. -/
abbrev Below (nodes : Nodes) : List Int → List Int → Prop :=
  Listed fun i => (childrenOf nodes i).reverse

theorem subtree_loop_listed {stack l : List Int} (h : Below nodes stack l) :
    ∀ {k : ℕ} {out : List Int}, l.length ≤ k → subtree_loop nodes k stack out = .ok (out ++ l) := by
  induction h with
  | nil =>
      intro k out _
      rw [List.append_nil]
      cases k <;> rfl
  | @cons i stack l _ ih =>
      intro k out hk
      obtain ⟨k, rfl⟩ : ∃ k', k = k' + 1 := ⟨k - 1, by rw [List.length_cons] at hk; omega⟩
      rw [subtree_loop, ih (Nat.le_of_succ_le_succ hk), List.append_assoc]
      rfl

theorem listed_of_subtree_loop : ∀ {k : ℕ} {stack out l : List Int},
    subtree_loop nodes k stack out = .ok l → ∃ l', Below nodes stack l' ∧ l = out ++ l'
  | k, [], out, l, h => by
      have hl : out = l := by
        cases k <;> exact Except.ok.inj h
      exact ⟨[], .nil, by rw [List.append_nil, hl]⟩
  | 0, _ :: _, _, _, h => nomatch h
  | k + 1, i :: stack, out, l, h => by
      rw [subtree_loop] at h
      obtain ⟨l', hl', rfl⟩ := listed_of_subtree_loop h
      exact ⟨i :: l', .cons hl', List.append_assoc ..⟩

theorem subtree_loop_trouble {e : Trouble} : ∀ {k : ℕ} {stack out : List Int},
    subtree_loop nodes k stack out = .error e → e = .endless
  | 0, [], _, h => nomatch h
  | _ + 1, [], _, h => nomatch h
  | 0, _ :: _, _, h => (Except.error.inj h).symm
  | _ + 1, _ :: _, _, h => subtree_loop_trouble (by rwa [subtree_loop] at h)

/-- Below a node that is on no cycle the walk ends. -/
theorem Keyed.subtree_ok (h : Keyed nodes) (hn : nodes.get i = some n)
    (hacyclic : ¬ OnCycle (parentOf nodes) i) : ∃ gone, subtree nodes i = .ok gone := by
  have hkids := h.mem_reverse_childrenOf
  have hacc := (acc_iff hkids (finite_held nodes)).mpr hacyclic
  obtain ⟨l, hl⟩ : ∃ l, Below nodes [i] l :=
    exists_listed fun a ha => List.mem_singleton.mp ha ▸ hacc
  have hnodup : l.Nodup := hl.nodup (p := n.parent_index) hkids
    (fun a => List.nodup_reverse.mpr (h.nodup_childrenOf a))
    (fun a ha => List.mem_singleton.mp ha ▸ parentOf_eq_some.mpr ⟨n, hn, rfl⟩)
    (List.nodup_singleton i) (fun a ha => List.mem_singleton.mp ha ▸ hacyclic)
  have hheld : ∀ x ∈ l, ∃ m, nodes.get x = some m := by
    intro x hx
    obtain ⟨a, ha, hxa⟩ := hl.mem_iff.mp hx
    obtain rfl := List.mem_singleton.mp ha
    rw [child_eq_up hkids] at hxa
    rcases ReflTransGen.cases_head hxa with rfl | ⟨q, hq, -⟩
    · exact ⟨n, hn⟩
    · obtain ⟨m, hm, -⟩ := parentOf_eq_some.mp hq
      exact ⟨m, hm⟩
  exact ⟨[] ++ l, subtree_loop_listed hl (length_le_of_held hnodup hheld)⟩

/-- From a node on a cycle the walk takes any number of steps. -/
theorem Keyed.subtree_loop_endless (h : Keyed nodes) (hcycle : OnCycle (parentOf nodes) i) (k : ℕ) :
    subtree_loop nodes k [i] [] = .error .endless := by
  cases heq : subtree_loop nodes k [i] [] with
  | ok l =>
      obtain ⟨l', hl', -⟩ := listed_of_subtree_loop heq
      have hacc := hl'.acc i (List.mem_singleton_self i)
      exact absurd hcycle ((acc_iff h.mem_reverse_childrenOf (finite_held nodes)).mp hacc)
  | error e => rw [subtree_loop_trouble heq]

theorem Keyed.subtree_endless_iff (h : Keyed nodes) (hn : nodes.get i = some n) :
    subtree nodes i = .error .endless ↔ OnCycle (parentOf nodes) i := by
  constructor
  · intro hend
    by_contra hacyclic
    obtain ⟨gone, hgone⟩ := h.subtree_ok hn hacyclic
    exact nomatch hend.symm.trans hgone
  · exact fun hcycle => h.subtree_loop_endless hcycle _

/-! ## The check of the tree -/

theorem walk_up_rooted {ok : List Int} {start : Int}
    (hok : ∀ i ∈ ok, ReflTransGen (Up (parentOf nodes)) i (-1)) :
    ∀ {k : ℕ} {path path' : List Int} {i : Int}, walk_up nodes ok start k path i = .ok path' →
      ReflTransGen (Up (parentOf nodes)) i (-1) ∧
        ∀ x ∈ path', x ∈ path ∨ ReflTransGen (Up (parentOf nodes)) x (-1) := by
  intro k
  induction k with
  | zero =>
      intro path path' i h
      cases h
  | succ k ih =>
      intro path path' i h
      rw [walk_up] at h
      by_cases hend : i = -1 ∨ i ∈ ok
      · rw [if_pos hend] at h
        obtain rfl := Except.ok.inj h
        refine ⟨?_, fun x hx => .inl hx⟩
        rcases hend with rfl | hmem
        · exact .refl
        · exact hok i hmem
      · rw [if_neg hend] at h
        cases hn : nodes.get i with
        | none => rw [hn] at h; cases h
        | some n =>
            rw [hn] at h
            obtain ⟨hparent, hpath⟩ := ih h
            have hi : ReflTransGen (Up (parentOf nodes)) i (-1) :=
              hparent.head (parentOf_eq_some.mpr ⟨n, hn, rfl⟩)
            refine ⟨hi, fun x hx => ?_⟩
            rcases hpath x hx with hmem | hroot
            · rcases List.mem_append.mp hmem with hmem | hmem
              · exact .inl hmem
              · exact .inr (List.mem_singleton.mp hmem ▸ hi)
            · exact .inr hroot

/-- On the way up in a forest no node is met twice, so the steps are enough. -/
theorem Keyed.walk_up_ok (h : Keyed nodes) {ok : List Int} {start : Int} :
    ∀ {k : ℕ} {path : List Int} {i : Int}, path.length + k = nodes.items.length + 1 → path.Nodup →
      (∀ x ∈ path, ∃ n, nodes.get x = some n) → ReflTransGen (Up (parentOf nodes)) i (-1) →
      (∀ x ∈ path, TransGen (Up (parentOf nodes)) x i) →
      ∃ path', walk_up nodes ok start k path i = .ok path'
  | 0, path, i, hk, hnodup, hheld, _, _ => by
      have hle := length_le_of_held hnodup hheld
      omega
  | k + 1, path, i, hk, hnodup, hheld, hup, hbelow => by
      rw [walk_up]
      by_cases hend : i = -1 ∨ i ∈ ok
      · rw [if_pos hend]
        exact ⟨path, rfl⟩
      rw [if_neg hend]
      rcases ReflTransGen.cases_head hup with htop | ⟨p, hp, hptop⟩
      · exact absurd (.inl htop) hend
      obtain ⟨n, hn, rfl⟩ := parentOf_eq_some.mp hp
      rw [hn]
      have hnew : i ∉ path := fun hmem => not_onCycle_of_root h.root hup (hbelow i hmem)
      refine h.walk_up_ok ?_ ?_ ?_ hptop ?_
      · rw [List.length_append, List.length_singleton]
        omega
      · exact List.nodup_append'.mpr ⟨hnodup, List.nodup_singleton i,
          fun x hx hx' => hnew (List.mem_singleton.mp hx' ▸ hx)⟩
      · intro x hx
        rcases List.mem_append.mp hx with hx | hx
        · exact hheld x hx
        · exact ⟨n, List.mem_singleton.mp hx ▸ hn⟩
      · intro x hx
        rcases List.mem_append.mp hx with hx | hx
        · exact (hbelow x hx).tail hp
        · exact List.mem_singleton.mp hx ▸ TransGen.single hp

theorem walk_up_trouble {ok : List Int} {start : Int} {e : Trouble} :
    ∀ {k : ℕ} {path : List Int} {i : Int}, walk_up nodes ok start k path i = .error e → e ≠ .endless
  | 0, _, _, h => by
      obtain rfl := Except.error.inj h
      exact Trouble.noConfusion
  | k + 1, path, i, h => by
      rw [walk_up] at h
      split_ifs at h with hend
      cases hn : nodes.get i with
      | none =>
          rw [hn] at h
          obtain rfl := Except.error.inj h
          exact Trouble.noConfusion
      | some n =>
          rw [hn] at h
          exact walk_up_trouble h

/-- `check_tree` accepts a map just when it is a forest. -/
theorem Keyed.check_tree_iff (h : Keyed nodes) : (∃ ok, check_tree nodes = .ok ok) ↔ Forest nodes := by
  rw [h.forest_iff]
  constructor
  · rintro ⟨ok', hok'⟩
    have hfold : ∀ (keys ok : List Int), (∀ i ∈ ok, ReflTransGen (Up (parentOf nodes)) i (-1)) →
        ∀ {ok'}, keys.foldlM (fun ok start => do
          let path ← walk_up nodes ok start (nodes.items.length + 1) [] start
          .ok (ok ++ path)) ok = .ok ok' →
        ∀ i ∈ keys, ReflTransGen (Up (parentOf nodes)) i (-1) := by
      intro keys
      induction keys with
      | nil => exact fun _ _ _ _ i hi => absurd hi List.not_mem_nil
      | cons start keys ih =>
          intro ok hok ok' heq i hi
          rw [List.foldlM_cons] at heq
          cases hwalk : walk_up nodes ok start (nodes.items.length + 1) [] start with
          | error e => rw [hwalk] at heq; exact nomatch heq
          | ok path =>
              rw [hwalk] at heq
              obtain ⟨hstart, hpath⟩ := walk_up_rooted hok hwalk
              rcases List.mem_cons.mp hi with rfl | hi
              · exact hstart
              · refine ih (ok ++ path) (fun x hx => ?_) heq i hi
                rcases List.mem_append.mp hx with hx | hx
                · exact hok x hx
                · exact (hpath x hx).resolve_left List.not_mem_nil
    exact fun i n hn => hfold nodes.keys [] (fun _ hi => absurd hi List.not_mem_nil) hok' i
      (OrderedDict.mem_keys.mpr ⟨n, hn⟩)
  · intro hup
    have hfold : ∀ (keys ok : List Int), (∀ i ∈ keys, ∃ n, nodes.get i = some n) →
        ∃ ok', keys.foldlM (fun ok start => do
          let path ← walk_up nodes ok start (nodes.items.length + 1) [] start
          .ok (ok ++ path)) ok = (.ok ok' : Except Trouble (List Int)) := by
      intro keys
      induction keys with
      | nil => exact fun ok _ => ⟨ok, rfl⟩
      | cons start keys ih =>
          intro ok hkeys
          obtain ⟨n, hn⟩ := hkeys start List.mem_cons_self
          obtain ⟨path, hpath⟩ : ∃ path,
              walk_up nodes ok start (nodes.items.length + 1) [] start = .ok path :=
            h.walk_up_ok (Nat.zero_add _) List.nodup_nil (fun _ hx => absurd hx List.not_mem_nil)
              (hup start n hn) (fun _ hx => absurd hx List.not_mem_nil)
          obtain ⟨ok', hok'⟩ := ih (ok ++ path) fun i hi => hkeys i (List.mem_cons_of_mem start hi)
          refine ⟨ok', ?_⟩
          rw [List.foldlM_cons, hpath]
          exact hok'
    exact hfold nodes.keys [] fun i hi => OrderedDict.mem_keys.mp hi

theorem check_tree_trouble {e : Trouble} (h : check_tree nodes = .error e) : e ≠ .endless := by
  refine Along.error_foldlM (P := (· ≠ .endless)) (fun ok start why heq => ?_) h
  cases hwalk : walk_up nodes ok start (nodes.items.length + 1) [] start with
  | error e' =>
      rw [hwalk] at heq
      obtain rfl : e' = why := Except.error.inj heq
      exact walk_up_trouble hwalk
  | ok path => rw [hwalk] at heq; exact nomatch heq

/-! ## Rows of a forest -/

/-- The row shows the held node. -/
def Row.Shows (control : Char → Bool) (state : InspectorState) (r : Row) : Prop :=
  ∃ n, state.nodes.get r.index = some n ∧ r = row control state r.index r.depth n

/-- Every held node once; a root at depth 0, another under its parent, which is the nearest row
before it that is less deep. -/
structure Displays (control : Char → Bool) (state : InspectorState) (rs : List Row) : Prop where
  shows : ∀ r ∈ rs, r.Shows control state
  once : (rs.map Row.index).Perm state.nodes.keys
  under : ∀ before r after, rs = before ++ r :: after →
    (r.depth = 0 ∧ parentOf state.nodes r.index = some (-1)) ∨
    ∃ as q bs, before = as ++ q :: bs ∧ parentOf state.nodes r.index = some q.index ∧
      q.depth + 1 = r.depth ∧ ∀ y ∈ bs, r.depth ≤ y.depth

variable {control : Char → Bool} {state : InspectorState}

/-- The walk that the rows follow. -/
abbrev Indexed (nodes : Nodes) : List (Int × ℕ) → List (Int × ℕ) → Prop :=
  Listed (withDepth (childrenOf nodes))

theorem rows_loop_listed {stack l : List (Int × ℕ)} (h : Indexed state.nodes stack l) :
    ∀ {k : ℕ} {out : List Row}, l.length ≤ k → (∀ x ∈ l, ∃ n, state.nodes.get x.1 = some n) →
      ∃ rs, rows_loop control state k stack out = some (out ++ rs) ∧
        rs.map (fun r => (r.index, r.depth)) = l ∧ ∀ r ∈ rs, r.Shows control state := by
  induction h with
  | nil =>
      intro k out _ _
      refine ⟨[], ?_, rfl, fun r hr => absurd hr List.not_mem_nil⟩
      rw [List.append_nil]
      cases k <;> rfl
  | @cons x stack l _ ih =>
      intro k out hk hheld
      obtain ⟨i, depth⟩ := x
      obtain ⟨k, rfl⟩ : ∃ k', k = k' + 1 := ⟨k - 1, by rw [List.length_cons] at hk; omega⟩
      obtain ⟨n, hn⟩ := hheld _ List.mem_cons_self
      obtain ⟨rs, hrs, hindex, hshow⟩ := @ih k (out ++ [row control state i depth n])
        (Nat.le_of_succ_le_succ hk) fun y hy => hheld y (List.mem_cons_of_mem _ hy)
      refine ⟨row control state i depth n :: rs, ?_, ?_, ?_⟩
      · rw [rows_loop, hn]
        dsimp only
        rw [hrs, List.append_assoc]
        rfl
      · rw [List.map_cons, hindex]
        rfl
      · intro r hr
        rcases List.mem_cons.mp hr with rfl | hr
        · exact ⟨n, hn, rfl⟩
        · exact hshow r hr

/-- On a forest `rows` ends, and lists each held node once under its parent. -/
theorem exists_rows (h : Keyed state.nodes) (hforest : Forest state.nodes) :
    ∃ rs, rows control state = some rs ∧ Displays control state rs := by
  have hkids := h.mem_childrenOf
  have hroots : ∀ a ∈ childrenOf state.nodes (-1), parentOf state.nodes a = some (-1) :=
    fun a ha => (hkids (-1) a).mp ha
  obtain ⟨l, hl⟩ : ∃ l, Listed (childrenOf state.nodes) (childrenOf state.nodes (-1)) l :=
    exists_listed fun a _ => (acc_iff hkids (finite_held state.nodes)).mpr (hforest.acyclic a)
  have hnodup : l.Nodup :=
    hl.nodup hkids h.nodup_childrenOf hroots (h.nodup_childrenOf (-1)) fun a _ => hforest.acyclic a
  -- the nodes listed are those held
  have hmem : ∀ i, i ∈ l ↔ ∃ n, state.nodes.get i = some n := by
    intro i
    rw [hl.mem_iff, child_eq_up hkids]
    constructor
    · rintro ⟨a, ha, hia⟩
      rcases ReflTransGen.cases_head hia with rfl | ⟨q, hq, -⟩
      · obtain ⟨n, hn, -⟩ := parentOf_eq_some.mp (hroots i ha)
        exact ⟨n, hn⟩
      · obtain ⟨n, hn, -⟩ := parentOf_eq_some.mp hq
        exact ⟨n, hn⟩
    · rintro ⟨n, hn⟩
      rcases ReflTransGen.cases_tail (h.forest_iff.mp hforest i n hn) with htop | ⟨a, hia, ha⟩
      · exact absurd (h i n hn).2 (by rw [← htop]; decide)
      · exact ⟨a, (hkids (-1) a).mpr ha, hia⟩
  have hroots_fst : ((childrenOf state.nodes (-1)).map fun i => (i, 0)).map Prod.fst =
      childrenOf state.nodes (-1) := by
    rw [List.map_map]
    exact List.map_id _
  obtain ⟨lp, hlp, hfst⟩ := hl.withDepth hroots_fst
  have hindented : Indented (parentOf state.nodes) (-1) 0 lp := hlp.indented hkids fun x hx => by
    obtain ⟨a, ha, rfl⟩ := List.mem_map.mp hx
    exact ⟨rfl, hroots a ha⟩
  have hlength : lp.length ≤ state.nodes.items.length := by
    rw [← List.length_map (f := Prod.fst), hfst]
    exact length_le_of_held hnodup fun i hi => (hmem i).mp hi
  obtain ⟨rs, hrs, hpairs, hshow⟩ := @rows_loop_listed control state _ _ hlp _ [] hlength
    fun x hx => (hmem x.1).mp (hfst ▸ List.mem_map_of_mem hx)
  have hindex : rs.map Row.index = l := by
    rw [← hfst, ← hpairs, List.map_map]
    rfl
  refine ⟨rs, hrs, hshow, ?_, ?_⟩
  · rw [hindex]
    exact (List.perm_ext_iff_of_nodup hnodup state.nodes.nodup_keys).mpr fun i =>
      (hmem i).trans OrderedDict.mem_keys.symm
  · intro before r after heq
    have hsplit : lp = before.map (fun r => (r.index, r.depth)) ++
        (r.index, r.depth) :: after.map (fun r => (r.index, r.depth)) := by
      rw [← hpairs, heq, List.map_append, List.map_cons]
    rcases hindented _ _ _ hsplit with hroot | ⟨as, q, bs, hbefore, hup, hdepth, -, hdeep⟩
    · exact .inl hroot
    · obtain ⟨as', bs', rfl, rfl, hbs⟩ := List.map_eq_append_iff.mp hbefore
      obtain ⟨q', bs', rfl, rfl, rfl⟩ := List.map_eq_cons_iff.mp hbs
      exact .inr ⟨as', q', bs', rfl, hup, hdepth, fun y hy =>
        hdeep _ (List.mem_map_of_mem (f := fun r => (r.index, r.depth)) hy)⟩

/-! ## Patching -/

/-- Each removal of the changes, where it comes to it, names a node that is on no cycle of
parents. -/
def Removable (nodes : Nodes) (dib : Dibs) (deltas : List NodeDelta) : Prop :=
  ∀ before d after, deltas = before ++ d :: after → d.op = .remove →
    ∀ nodes' dib', patch nodes dib before = .ok (nodes', dib') →
      ¬ OnCycle (parentOf nodes') d.index

theorem keyed_empty : Keyed .empty := fun _ _ h => nomatch h

theorem Keyed.set (h : Keyed nodes) {d : NodeDelta} (hd : 0 ≤ d.index) :
    Keyed (nodes.set d.index (.of d)) := by
  intro i n hn
  rw [OrderedDict.get_set] at hn
  split_ifs at hn with hi
  · obtain rfl := Option.some.inj hn
    exact ⟨hi.symm, hi ▸ hd⟩
  · exact h i n hn

theorem Keyed.pops : ∀ {nodes : Nodes} (gone : List Int), Keyed nodes →
    Keyed (gone.foldl OrderedDict.pop nodes)
  | _, [], h => h
  | nodes, i :: gone, h => by
      have hpop : Keyed (nodes.pop i) := fun j n hj => by
        rw [OrderedDict.get_pop] at hj
        split_ifs at hj
        exact h j n hj
      exact hpop.pops gone

variable {dib : Dibs} {d : NodeDelta} {deltas : List NodeDelta} {acc : Nodes × Dibs}

/-- What a change that applies does. -/
theorem patch_one_ok (h : patch_one (nodes, dib) d = .ok acc) :
    acc = (nodes.set d.index (.of d), dib) ∨ ∃ gone, subtree nodes d.index = .ok gone ∧
      acc = (gone.foldl OrderedDict.pop nodes, gone.foldl OrderedDict.pop dib) := by
  rw [patch_one] at h
  cases hop : d.op with
  | add =>
      cases hn : nodes.get d.index with
      | none => rw [hop, hn] at h; exact .inl (Except.ok.inj h).symm
      | some n => rw [hop, hn] at h; cases h
  | update =>
      cases hn : nodes.get d.index with
      | none => rw [hop, hn] at h; cases h
      | some n => rw [hop, hn] at h; exact .inl (Except.ok.inj h).symm
  | remove =>
      cases hn : nodes.get d.index with
      | none => rw [hop, hn] at h; cases h
      | some n =>
          rw [hop, hn] at h
          cases hgone : subtree nodes d.index with
          | error e => rw [hgone] at h; cases h
          | ok gone => rw [hgone] at h; exact .inr ⟨gone, rfl, (Except.ok.inj h).symm⟩

theorem Keyed.patch_one (h : Keyed nodes) (hd : 0 ≤ d.index)
    (heq : patch_one (nodes, dib) d = .ok acc) : Keyed acc.1 := by
  rcases patch_one_ok heq with rfl | ⟨gone, -, rfl⟩
  · exact h.set hd
  · exact h.pops gone

theorem Keyed.patch_one_endless_iff (h : Keyed nodes) :
    Dialogue.patch_one (nodes, dib) d = .error .endless ↔
      d.op = .remove ∧ OnCycle (parentOf nodes) d.index := by
  rw [Dialogue.patch_one]
  cases hop : d.op with
  | add =>
      refine iff_of_false (fun heq => ?_) fun hr => by cases hr.1
      cases hn : nodes.get d.index with
      | none => rw [hn] at heq; cases heq
      | some n => rw [hn] at heq; cases heq
  | update =>
      refine iff_of_false (fun heq => ?_) fun hr => by cases hr.1
      cases hn : nodes.get d.index with
      | none => rw [hn] at heq; cases heq
      | some n => rw [hn] at heq; cases heq
  | remove =>
      rw [and_iff_right rfl]
      cases hn : nodes.get d.index with
      | none =>
          refine iff_of_false (fun heq => by cases heq) fun hcycle => ?_
          obtain ⟨q, hq, -⟩ := TransGen.head'_iff.mp hcycle
          cases hq.symm.trans (parentOf_eq_none.mpr hn)
      | some n =>
          rw [← h.subtree_endless_iff hn]
          cases hgone : subtree nodes d.index with
          | ok gone => exact iff_of_false (fun heq => by cases heq) fun heq => by cases heq
          | error e =>
              constructor
              · exact fun heq => congrArg Except.error (Except.error.inj heq)
              · exact fun heq => congrArg Except.error (Except.error.inj heq)

theorem Keyed.patch (h : Keyed nodes) (hd : ∀ d ∈ deltas, 0 ≤ d.index)
    (heq : patch nodes dib deltas = .ok acc) : Keyed acc.1 :=
  @Along.inv_foldlM _ _ _ Dialogue.patch_one (fun acc => Keyed acc.1) deltas (nodes, dib) acc
    (fun d hmem _ _ hacc hone => Keyed.patch_one hacc (hd d hmem) hone) heq h

theorem removable_cons : Removable nodes dib (d :: deltas) ↔
    (d.op = .remove → ¬ OnCycle (parentOf nodes) d.index) ∧
      ∀ acc, patch_one (nodes, dib) d = .ok acc → Removable acc.1 acc.2 deltas := by
  constructor
  · intro h
    refine ⟨fun hop => h [] d deltas rfl hop nodes dib rfl, ?_⟩
    intro acc hacc before e after heq hop nodes' dib' hpatch
    refine h (d :: before) e after (congrArg (d :: ·) heq) hop nodes' dib' ?_
    rw [patch, List.foldlM_cons, hacc]
    exact hpatch
  · rintro ⟨hfirst, hrest⟩ before e after heq hop nodes' dib' hpatch
    cases before with
    | nil =>
        obtain ⟨rfl, -⟩ := List.cons.inj heq
        obtain ⟨rfl, rfl⟩ := Prod.mk.inj (Except.ok.inj hpatch)
        exact hfirst hop
    | cons d' before =>
        obtain ⟨rfl, htail⟩ := List.cons.inj heq
        rw [patch, List.foldlM_cons] at hpatch
        cases hone : patch_one (nodes, dib) d with
        | error e' => rw [hone] at hpatch; cases hpatch
        | ok acc =>
            rw [hone] at hpatch
            exact hrest acc hone before e after htail hop nodes' dib' hpatch

/-- The changes are patched without end just when one of them removes a node on a cycle. -/
theorem Keyed.patch_endless_iff : ∀ {deltas : List NodeDelta} {nodes : Nodes} {dib : Dibs},
    Keyed nodes → (∀ d ∈ deltas, 0 ≤ d.index) →
    (Dialogue.patch nodes dib deltas = .error .endless ↔ ¬ Removable nodes dib deltas)
  | [], nodes, dib, _, _ => by
      refine iff_of_false (fun heq => by cases heq) (not_not.mpr fun before d after heq => ?_)
      exact absurd heq.symm (List.append_ne_nil_of_right_ne_nil before (List.cons_ne_nil d after))
  | d :: deltas, nodes, dib, h, hd => by
      rw [removable_cons, Dialogue.patch, List.foldlM_cons]
      cases hone : Dialogue.patch_one (nodes, dib) d with
      | error e =>
          have hfirst : Dialogue.patch_one (nodes, dib) d = .error .endless ↔
              d.op = .remove ∧ OnCycle (parentOf nodes) d.index := h.patch_one_endless_iff
          rw [hone] at hfirst
          rw [and_iff_left fun _ hok => (by cases hok), Classical.not_imp, not_not, ← hfirst]
          rfl
      | ok next =>
          have hfirst : d.op = .remove → ¬ OnCycle (parentOf nodes) d.index := by
            intro hop hcycle
            have hraise := hone.symm.trans (h.patch_one_endless_iff.mpr ⟨hop, hcycle⟩)
            cases hraise
          have ih : Dialogue.patch next.1 next.2 deltas = .error .endless ↔
              ¬ Removable next.1 next.2 deltas :=
            Keyed.patch_endless_iff (h.patch_one (hd d List.mem_cons_self) hone)
              fun e he => hd e (List.mem_cons_of_mem d he)
          rw [and_iff_right hfirst]
          constructor
          · exact fun heq hrem => ih.mp heq (hrem next rfl)
          · exact fun hnot => ih.mpr fun hrem => hnot fun acc hacc => Except.ok.inj hacc ▸ hrem

/-! ## Snapshots -/

variable {s s' : InspectorState} {pkt : StateSnapshotPacket}

/-- A node's delta is made with an index that is not negative. -/
theorem Made.index_nonneg (d : Made NodeDelta) : 0 ≤ d.obj.index := by
  have h := d.post_init
  simp only [PostInit.post_init] at h
  split_ifs at h with hneg
  exact not_lt.mp hneg

/-- The changes that a snapshot lists. -/
def deltasOf (pkt : StateSnapshotPacket) : List NodeDelta := pkt.nodes.map Made.obj

theorem deltasOf_nonneg (pkt : StateSnapshotPacket) : ∀ d ∈ deltasOf pkt, 0 ≤ d.index := by
  intro d hd
  obtain ⟨m, -, rfl⟩ := List.mem_map.mp hd
  exact m.index_nonneg

/-- The packet is not newer than what the inspector holds of the window. -/
def Stale (s : InspectorState) (pkt : StateSnapshotPacket) : Prop :=
  pkt.window_id = s.window_id ∧ pkt.generation ≤ s.generation

/-- The packet is a delta for the tree that the inspector holds. -/
def AppliesTo (s : InspectorState) (pkt : StateSnapshotPacket) : Prop :=
  s.needs_resync = false ∧ pkt.window_id = s.window_id ∧ pkt.base_generation = s.generation

/-- What the nodes are after the packet's changes. -/
def patched (s : InspectorState) (pkt : StateSnapshotPacket) : Except Trouble (Nodes × Dibs) :=
  if pkt.full then rebuild (deltasOf pkt) else patch s.nodes s.dib (deltasOf pkt)

/-- The packet is consistent with what the inspector holds: it is a full snapshot or builds on the
held tree, its changes apply one by one, they make a forest, and its references and its focus are
nodes of that forest. -/
def Consistent (s : InspectorState) (pkt : StateSnapshotPacket) : Prop :=
  (pkt.full = true ∨ AppliesTo s pkt) ∧
  ∃ nodes dib, patched s pkt = .ok (nodes, dib) ∧ Forest nodes ∧
    (∀ ref ∈ pkt.dib_references, ∃ n, nodes.get ref.obj.node_index = some n) ∧
    (pkt.focused_node_index = -1 ∨ ∃ n, nodes.get pkt.focused_node_index = some n)

theorem rebuild_one_trouble {e : Trouble} (h : rebuild_one nodes d = .error e) : e ≠ .endless := by
  rw [rebuild_one] at h
  cases hn : nodes.get d.index with
  | none => rw [hn] at h; cases h
  | some n =>
      rw [hn] at h
      obtain rfl := Except.error.inj h
      exact Trouble.noConfusion

theorem Keyed.rebuild_one (h : Keyed nodes) (hd : 0 ≤ d.index)
    (heq : rebuild_one nodes d = .ok nodes') : Keyed nodes' := by
  rw [Dialogue.rebuild_one] at heq
  cases hn : nodes.get d.index with
  | some n => rw [hn] at heq; cases heq
  | none =>
      rw [hn] at heq
      exact Except.ok.inj heq ▸ h.set hd

theorem rebuild_keyed (hd : ∀ d ∈ deltas, 0 ≤ d.index) (h : rebuild deltas = .ok acc) :
    Keyed acc.1 := by
  rw [rebuild] at h
  cases hfold : deltas.foldlM rebuild_one .empty with
  | error e => rw [hfold] at h; exact nomatch h
  | ok nodes =>
      rw [hfold] at h
      obtain rfl := Except.ok.inj h
      exact Along.inv_foldlM (fun d hmem _ _ hnodes hone => hnodes.rebuild_one (hd d hmem) hone)
        hfold keyed_empty

theorem rebuild_trouble {e : Trouble} (h : rebuild deltas = .error e) : e ≠ .endless := by
  rw [rebuild] at h
  cases hfold : deltas.foldlM rebuild_one .empty with
  | ok nodes => rw [hfold] at h; exact nomatch h
  | error e' =>
      rw [hfold] at h
      obtain rfl : e' = e := Except.error.inj h
      exact Along.error_foldlM (P := (· ≠ .endless)) (fun _ _ _ => rebuild_one_trouble) hfold

theorem place_dib_trouble {ref : DibRef} {e : Trouble} (h : place_dib nodes dib ref = .error e) :
    e ≠ .endless := by
  rw [place_dib] at h
  cases hn : nodes.get ref.node_index with
  | some n => rw [hn] at h; cases h
  | none =>
      rw [hn] at h
      obtain rfl := Except.error.inj h
      exact Trouble.noConfusion

theorem place_dibs_ok_iff : ∀ {refs : List DibRef} {dib : Dibs},
    (∃ dib', refs.foldlM (place_dib nodes) dib = .ok dib') ↔
      ∀ ref ∈ refs, ∃ n, nodes.get ref.node_index = some n
  | [], dib => iff_of_true ⟨dib, rfl⟩ fun _ h => absurd h List.not_mem_nil
  | ref :: refs, dib => by
      rw [List.foldlM_cons, List.forall_mem_cons, place_dib]
      cases hn : nodes.get ref.node_index with
      | none => exact iff_of_false (by rintro ⟨_, h⟩; cases h) (by rintro ⟨⟨_, h⟩, _⟩; cases h)
      | some n =>
          rw [and_iff_right ⟨n, rfl⟩]
          exact place_dibs_ok_iff

theorem patched_keyed (h : Keyed s.nodes) (heq : patched s pkt = .ok acc) : Keyed acc.1 := by
  rw [patched] at heq
  split_ifs at heq
  · exact rebuild_keyed (deltasOf_nonneg pkt) heq
  · exact h.patch (deltasOf_nonneg pkt) heq

theorem patched_endless_iff (h : Keyed s.nodes) : patched s pkt = .error .endless ↔
    pkt.full = false ∧ ¬ Removable s.nodes s.dib (deltasOf pkt) := by
  rw [patched]
  cases hfull : pkt.full with
  | true =>
      rw [if_pos rfl]
      exact iff_of_false (fun heq => rebuild_trouble heq rfl) fun hf => by cases hf.1
  | false =>
      rw [if_neg Bool.false_ne_true, and_iff_right rfl]
      exact h.patch_endless_iff (deltasOf_nonneg pkt)

/-- What is left to check of the nodes, and the images that are placed on them. -/
def check_packet (pkt : StateSnapshotPacket) (acc : Nodes × Dibs) : Except Trouble (Nodes × Dibs) := do
  let _ ← check_tree acc.1
  let dib ← (pkt.dib_references.map Made.obj).foldlM (place_dib acc.1) acc.2
  if pkt.focused_node_index ≠ -1 ∧ acc.1.get pkt.focused_node_index = none then
    .error (.inconsistent ("focus on unknown node " ++ toString pkt.focused_node_index))
  else .ok (acc.1, dib)

theorem fold_packet_eq : fold_packet s pkt = (patched s pkt).bind (check_packet pkt) := by
  rw [patched, fold_packet]
  split_ifs
  · rfl
  · rfl

theorem check_packet_trouble {e : Trouble} (h : check_packet pkt acc = .error e) : e ≠ .endless := by
  rw [check_packet] at h
  cases hcheck : check_tree acc.1 with
  | error e' =>
      rw [hcheck] at h
      obtain rfl : e' = e := Except.error.inj h
      exact check_tree_trouble hcheck
  | ok ok =>
      rw [hcheck] at h
      cases hdib : (pkt.dib_references.map Made.obj).foldlM (place_dib acc.1) acc.2 with
      | error e' =>
          rw [hdib] at h
          obtain rfl : e' = e := Except.error.inj h
          exact Along.error_foldlM (P := (· ≠ .endless)) (fun _ _ _ => place_dib_trouble) hdib
      | ok dib =>
          rw [hdib] at h
          change (if _ then _ else _) = _ at h
          split_ifs at h
          obtain rfl := Except.error.inj h
          exact Trouble.noConfusion

theorem check_packet_nodes {acc' : Nodes × Dibs} (h : check_packet pkt acc = .ok acc') : acc'.1 = acc.1 := by
  rw [check_packet] at h
  cases hcheck : check_tree acc.1 with
  | error e => rw [hcheck] at h; exact nomatch h
  | ok ok =>
      rw [hcheck] at h
      cases hdib : (pkt.dib_references.map Made.obj).foldlM (place_dib acc.1) acc.2 with
      | error e => rw [hdib] at h; exact nomatch h
      | ok dib =>
          rw [hdib] at h
          change (if _ then _ else _) = _ at h
          split_ifs at h
          exact Except.ok.inj h ▸ rfl

/-- The nodes pass just when they are a forest with the references and the focus among them. -/
theorem Keyed.check_packet_ok_iff (h : Keyed acc.1) : (∃ acc', check_packet pkt acc = .ok acc') ↔
    Forest acc.1 ∧ (∀ ref ∈ pkt.dib_references, ∃ n, acc.1.get ref.obj.node_index = some n) ∧
      (pkt.focused_node_index = -1 ∨ ∃ n, acc.1.get pkt.focused_node_index = some n) := by
  have hrefs := @place_dibs_ok_iff acc.1 (pkt.dib_references.map Made.obj) acc.2
  rw [List.forall_mem_map] at hrefs
  have hfocus : (pkt.focused_node_index = -1 ∨ ∃ n, acc.1.get pkt.focused_node_index = some n) ↔
      ¬ (pkt.focused_node_index ≠ -1 ∧ acc.1.get pkt.focused_node_index = none) := by
    rw [not_and_or, not_ne_iff, ← Option.ne_none_iff_exists']
  rw [← h.check_tree_iff, ← hrefs, hfocus, check_packet]
  cases hcheck : check_tree acc.1 with
  | error e => exact iff_of_false (by rintro ⟨_, heq⟩; cases heq) (by rintro ⟨⟨_, heq⟩, _⟩; cases heq)
  | ok ok =>
      cases hdib : (pkt.dib_references.map Made.obj).foldlM (place_dib acc.1) acc.2 with
      | error e => exact iff_of_false (by rintro ⟨_, heq⟩; cases heq) (by rintro ⟨_, ⟨_, heq⟩, _⟩; cases heq)
      | ok dib =>
          rw [and_iff_right (show ∃ ok', Except.ok (ε := Trouble) ok = .ok ok' from ⟨ok, rfl⟩),
            and_iff_right (show ∃ dib', Except.ok (ε := Trouble) dib = .ok dib' from ⟨dib, rfl⟩)]
          change (∃ acc', (if pkt.focused_node_index ≠ -1 ∧ acc.1.get pkt.focused_node_index = none
            then _ else _) = _) ↔ _
          split_ifs with hbad
          · exact iff_of_false (by rintro ⟨_, heq⟩; cases heq) (not_not.mpr hbad)
          · exact iff_of_true ⟨_, rfl⟩ hbad

theorem fold_packet_ok_iff (h : Keyed s.nodes) : (∃ acc, fold_packet s pkt = .ok acc) ↔
    ∃ nodes dib, patched s pkt = .ok (nodes, dib) ∧ Forest nodes ∧
      (∀ ref ∈ pkt.dib_references, ∃ n, nodes.get ref.obj.node_index = some n) ∧
      (pkt.focused_node_index = -1 ∨ ∃ n, nodes.get pkt.focused_node_index = some n) := by
  rw [fold_packet_eq]
  constructor
  · rintro ⟨acc, heq⟩
    cases hp : patched s pkt with
    | error e => rw [hp] at heq; exact nomatch heq
    | ok mid =>
        rw [hp] at heq
        exact ⟨mid.1, mid.2, rfl, (patched_keyed h hp).check_packet_ok_iff.mp ⟨acc, heq⟩⟩
  · rintro ⟨nodes, dib, hp, hrest⟩
    rw [hp]
    exact (patched_keyed h hp).check_packet_ok_iff.mpr hrest

theorem fold_packet_ok {acc : Nodes × Dibs} (h : Keyed s.nodes) (heq : fold_packet s pkt = .ok acc) :
    Keyed acc.1 ∧ Forest acc.1 := by
  rw [fold_packet_eq] at heq
  cases hp : patched s pkt with
  | error e => rw [hp] at heq; exact nomatch heq
  | ok mid =>
      rw [hp] at heq
      have hkeyed := patched_keyed h hp
      rw [check_packet_nodes heq]
      exact ⟨hkeyed, (hkeyed.check_packet_ok_iff.mp ⟨acc, heq⟩).1⟩

theorem fold_packet_endless_iff (h : Keyed s.nodes) : fold_packet s pkt = .error .endless ↔
    pkt.full = false ∧ ¬ Removable s.nodes s.dib (deltasOf pkt) := by
  rw [fold_packet_eq, ← patched_endless_iff h]
  cases hp : patched s pkt with
  | error e => rfl
  | ok mid => exact iff_of_false (fun heq => check_packet_trouble heq rfl) fun heq => nomatch heq

/-! ## Runs of snapshots -/

/-- What the operator's side holds: a forest, which its rows display. -/
structure Held (control : Char → Bool) (s : InspectorState) : Prop where
  forest : Forest s.nodes
  rows : ∃ rs, Dialogue.rows control s = some rs ∧ Displays control s rs

/-- The packet is taken, and left if it is stale or inconsistent: then the tree, the images and
the generation are as they were. -/
structure Survived (control : Char → Bool) (s : InspectorState) (pkt : StateSnapshotPacket)
    (s' : InspectorState) : Prop where
  held : Held control s'
  unchanged : Stale s pkt ∨ ¬ Consistent s pkt →
    s'.nodes = s.nodes ∧ s'.dib = s.dib ∧ s'.generation = s.generation
  folded : ¬ Stale s pkt → Consistent s pkt →
    s'.generation = pkt.generation ∧ ∃ dib, patched s pkt = .ok (s'.nodes, dib)

/-- The inspector after a packet; where `apply` never ends, as it was. -/
def take_packet (s : InspectorState) (pkt : StateSnapshotPacket) : InspectorState :=
  (apply s pkt).getD s

/-- If the packet is a delta that is patched onto the held tree, its removals are of nodes on no
cycle. -/
def Safe (s : InspectorState) (pkt : StateSnapshotPacket) : Prop :=
  ¬ Stale s pkt → pkt.full = false → AppliesTo s pkt → Removable s.nodes s.dib (deltasOf pkt)

variable {control : Char → Bool}

theorem held_of_forest (h : Keyed s.nodes) (hforest : Forest s.nodes) : Held control s :=
  ⟨hforest, exists_rows h hforest⟩

/-- A packet that is not stale is folded in if it is full or builds on the held tree. -/
theorem apply_of_base (hstale : ¬ Stale s pkt) (hbase : pkt.full = true ∨ AppliesTo s pkt) :
    apply s pkt = fold_in s pkt := by
  rw [Stale] at hstale
  rw [apply, if_neg hstale]
  rcases hbase with hfull | ⟨hresync, hwindow, hgen⟩
  · rw [if_pos hfull]
  · split_ifs with hfull hr hw hg
    · rfl
    · exact absurd (hresync.symm.trans hr) Bool.false_ne_true
    · exact absurd hwindow hw
    · exact absurd hgen hg
    · rfl

/-- Any other packet leaves the tree. -/
theorem apply_of_no_base (h : Stale s pkt ∨ ¬ (pkt.full = true ∨ AppliesTo s pkt)) :
    apply s pkt = some s ∨ ∃ why, apply s pkt = some (desync s why) := by
  rw [apply]
  by_cases hstale : Stale s pkt
  · exact .inl (if_pos hstale)
  · have hno := h.resolve_left hstale
    rw [Stale] at hstale
    rw [if_neg hstale]
    split_ifs with hfull hr hw hg
    · exact absurd (.inl hfull) hno
    · exact .inl rfl
    · exact .inr ⟨_, rfl⟩
    · exact .inr ⟨_, rfl⟩
    · refine absurd (.inr ⟨Bool.eq_false_of_not_eq_true hr, ?_, ?_⟩) hno
      · exact of_not_not hw
      · exact of_not_not hg

/-- The nodes of what a run holds: each under its index, and a forest. -/
structure Sound (s : InspectorState) : Prop where
  keyed : Keyed s.nodes
  forest : Forest s.nodes

theorem sound_empty : Sound EMPTY where
  keyed := keyed_empty
  forest := keyed_empty.forest_iff.mpr fun _ _ h => nomatch h

/-- What `apply` returns. -/
theorem Sound.apply (h : Sound s) (heq : Dialogue.apply s pkt = some s') :
    Sound s' ∧ Survived control s pkt s' := by
  have hleft : ∀ why, Sound (desync s why) := fun why => ⟨h.keyed, h.forest⟩
  by_cases hbase : ¬ Stale s pkt ∧ (pkt.full = true ∨ AppliesTo s pkt)
  · rw [apply_of_base hbase.1 hbase.2, fold_in] at heq
    cases hfold : fold_packet s pkt with
    | error e =>
        have hno : ¬ Consistent s pkt := fun hc => by
          obtain ⟨acc, hacc⟩ := (fold_packet_ok_iff h.keyed).mpr hc.2
          exact nomatch hfold.symm.trans hacc
        cases e with
        | endless => rw [hfold] at heq; exact nomatch heq
        | inconsistent why =>
            rw [hfold] at heq
            obtain rfl := Option.some.inj heq
            exact ⟨hleft why, held_of_forest h.keyed h.forest, fun _ => ⟨rfl, rfl, rfl⟩,
              fun _ hc => absurd hc hno⟩
    | ok acc =>
        rw [hfold] at heq
        obtain rfl := Option.some.inj heq
        obtain ⟨hkeyed, hforest⟩ := fold_packet_ok h.keyed hfold
        have hc : Consistent s pkt := ⟨hbase.2, (fold_packet_ok_iff h.keyed).mp ⟨acc, hfold⟩⟩
        refine ⟨⟨hkeyed, hforest⟩, held_of_forest hkeyed hforest, ?_, fun _ _ => ⟨rfl, ?_⟩⟩
        · exact fun hor => absurd hor (not_or.mpr ⟨hbase.1, not_not.mpr hc⟩)
        · rw [fold_packet_eq] at hfold
          cases hp : patched s pkt with
          | error e => rw [hp] at hfold; exact nomatch hfold
          | ok mid =>
              rw [hp] at hfold
              exact ⟨mid.2, by rw [check_packet_nodes hfold]⟩
  · have hno : Stale s pkt ∨ ¬ (pkt.full = true ∨ AppliesTo s pkt) := by
      rwa [not_and_or, not_not] at hbase
    have hskip : ¬ Stale s pkt → Consistent s pkt → False := fun hstale hc =>
      hbase ⟨hstale, hc.1⟩
    rcases apply_of_no_base hno with hsame | ⟨why, hwhy⟩
    · obtain rfl := Option.some.inj (hsame.symm.trans heq)
      exact ⟨h, held_of_forest h.keyed h.forest, fun _ => ⟨rfl, rfl, rfl⟩,
        fun hstale hc => (hskip hstale hc).elim⟩
    · obtain rfl := Option.some.inj (hwhy.symm.trans heq)
      exact ⟨hleft why, held_of_forest h.keyed h.forest, fun _ => ⟨rfl, rfl, rfl⟩,
        fun hstale hc => (hskip hstale hc).elim⟩

/-- A packet is taken just when no removal that it makes is of a node on a cycle. -/
theorem Sound.apply_iff (h : Sound s) : (∃ s', Dialogue.apply s pkt = some s') ↔ Safe s pkt := by
  by_cases hbase : ¬ Stale s pkt ∧ (pkt.full = true ∨ AppliesTo s pkt)
  · have hend : fold_packet s pkt = .error .endless ↔
        pkt.full = false ∧ ¬ Removable s.nodes s.dib (deltasOf pkt) := fold_packet_endless_iff h.keyed
    rw [apply_of_base hbase.1 hbase.2, fold_in]
    cases hfold : fold_packet s pkt with
    | ok acc =>
        refine iff_of_true ⟨_, rfl⟩ fun _ hfull _ => ?_
        by_contra hrem
        cases hfold.symm.trans (hend.mpr ⟨hfull, hrem⟩)
    | error e =>
        cases e with
        | inconsistent why =>
            refine iff_of_true ⟨_, rfl⟩ fun _ hfull _ => ?_
            by_contra hrem
            cases hfold.symm.trans (hend.mpr ⟨hfull, hrem⟩)
        | endless =>
            obtain ⟨hfull, hrem⟩ := hend.mp hfold
            refine iff_of_false (by rintro ⟨_, heq⟩; cases heq) fun hsafe => ?_
            have happlies := hbase.2.resolve_left fun hf => by cases hf.symm.trans hfull
            exact hrem (hsafe hbase.1 hfull happlies)
  · have hno : Stale s pkt ∨ ¬ (pkt.full = true ∨ AppliesTo s pkt) := by
      rwa [not_and_or, not_not] at hbase
    refine iff_of_true ?_ fun hstale _ happlies => (hbase ⟨hstale, .inr happlies⟩).elim
    rcases apply_of_no_base hno with hsame | ⟨why, hwhy⟩
    · exact ⟨s, hsame⟩
    · exact ⟨_, hwhy⟩

theorem Sound.take_packet (h : Sound s) (pkt : StateSnapshotPacket) : Sound (take_packet s pkt) := by
  rw [Dialogue.take_packet]
  cases heq : Dialogue.apply s pkt with
  | none => exact h
  | some s' => exact (@Sound.apply s s' pkt (fun _ => false) h heq).1

/-- Along every run from the start, the inspector survives each packet just when each is safe; and
what it holds is a forest that the rows display. -/
theorem inspector_survives_iff (control : Char → Bool) (pkts : List StateSnapshotPacket) :
    Held control (pkts.foldl take_packet EMPTY) ∧
    (Along.All take_packet (fun s pkt => ∃ s', apply s pkt = some s' ∧ Survived control s pkt s')
        EMPTY pkts ↔
      Along.All take_packet Safe EMPTY pkts) := by
  have hstep : ∀ s (pkt : StateSnapshotPacket), Sound s → Sound (take_packet s pkt) :=
    fun s pkt h => h.take_packet pkt
  constructor
  · have hsound := Along.inv_foldl hstep pkts sound_empty
    exact held_of_forest hsound.keyed hsound.forest
  · refine Along.all_congr hstep (fun s pkt h => ?_) pkts sound_empty
    rw [← h.apply_iff]
    constructor
    · rintro ⟨s', heq, -⟩
      exact ⟨s', heq⟩
    · rintro ⟨s', heq⟩
      exact ⟨s', heq, (h.apply heq).2⟩

/-! ## A delta that is patched without end -/

namespace Hostile

theorem length_bounds : ([0, 0, 0, 0] : List Int).length = 4 := rfl

def delta (op : NodeOp) (index parent_index : Int) : NodeDelta :=
  { op, index, parent_index, automation_id := "", path_index := [], role := "", name := "",
    bounds := ⟨[0, 0, 0, 0], length_bounds⟩, enabled := true, is_interactive := false }

/-- Two nodes are added, each under the other, and one of them is removed again. -/
def ring : StateSnapshotPacket where
  window_id := 1
  app_pid := 7
  generation := 1
  nodes := [⟨delta .add 1 2, rfl⟩, ⟨delta .add 2 1, rfl⟩, ⟨delta .remove 1 (-1), rfl⟩]
  dib_references := []
  focused_node_index := -1
  full := false
  base_generation := 0

def first : StateSnapshotPacket :=
  { ring with generation := 0, nodes := [], full := true, base_generation := -1 }

/-- The map when the removal comes. -/
def ringed : Nodes :=
  (OrderedDict.empty.set 1 (.of (delta .add 1 2))).set 2 (.of (delta .add 2 1))

theorem keyed_ringed : Keyed ringed := (keyed_empty.set (d := delta .add 1 2) (by decide)).set
  (d := delta .add 2 1) (by decide)

/-- Both packets are well typed; the walk from the removed node takes any number of steps. -/
theorem apply_endless :
    (PostInit.post_init first = none ∧ PostInit.post_init ring = none) ∧
    (∀ steps, subtree_loop ringed steps [1] [] = .error .endless) ∧
    ¬ Along.All take_packet
      (fun s pkt => ∃ s', apply s pkt = some s' ∧ Survived (fun _ => false) s pkt s')
      EMPTY [first, ring] := by
  refine ⟨⟨rfl, rfl⟩, ?_, ?_⟩
  · have hup : Up (parentOf ringed) 1 2 := rfl
    have hdown : Up (parentOf ringed) 2 1 := rfl
    exact keyed_ringed.subtree_loop_endless ((TransGen.single hup).tail hdown)
  · rintro ⟨-, ⟨s', heq, -⟩, -⟩
    exact nomatch heq

end Hostile

end Secdogie.Dialogue
