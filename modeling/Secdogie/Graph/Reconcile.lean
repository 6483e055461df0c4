/-
# `Secdogie.Graph.Reconcile` — whole reconciliations of two stores

Two runs of the exchange of `Secdogie.Graph.Sync` and when they get
somewhere.

In the first, two stores pull from each other in turn.  They end up the same
exactly if, as long as they are not, some later turn still brings a node
(`turns_converge_iff`): every such turn adds one and there are only so many.

In the second, one store pulls once and then sends the follow-up wants that
its orphans call for.  It gets a node exactly if one of these answers brings
one; a head that is already held as an orphan is not asked for
(`followUps_iff`).
-/
import Secdogie.Graph.SyncProgress

namespace Secdogie.Graph

namespace Sync

open DagStore

section

variable {P : Prims} {F : Type} [FloatCodec F] {Q : Node → Prop} {a b : DagStore}

/-! ## Stores and their histories -/

/-- A store filled by `wires`, some of which may have been refused. -/
def Reached (P : Prims) (F : Type) [FloatCodec F] (wires : List String) (s : DagStore) : Prop :=
  ∃ cfg s₀, DagStore.new cfg = .ok s₀ ∧ s = insertWires P F s₀ wires

theorem LoopInv.mono {Q' : Node → Prop} {s : DagStore} {work todo : List String}
    (h : LoopInv P F Q s work todo)
    (hQ : ∀ (c : String) n, s.nodes[c]? = some n ∨ s.orphans[c]? = some n → Q' n) :
    LoopInv P F Q' s work todo :=
  ⟨{ h.nodes with known := hQ }, h.orphans⟩

theorem Reached.inv {wires : List String} {W : Set String} {s : DagStore}
    (h : Reached P F wires s) (hsub : ∀ w ∈ wires, w ∈ W) (hfree : CollisionFree P F W) :
    LoopInv P F (Carries P F W) s [] [] := by
  obtain ⟨cfg, s₀, hnew, rfl⟩ := h
  obtain ⟨trust, -, rfl⟩ := new_ok hnew
  exact (loopInv_insertWires (names_of_carries hfree (fun _ h => h)).keys
    (fun w hw n hn => ⟨_, _, w, hsub w hw, hn⟩) (loopInv_new trust cfg)).2

/-! ## Pulling in turn -/

/-- The cids of the nodes. -/
def nodeSet (s : DagStore) : Finset String := s.nodes.keys.toFinset

theorem mem_nodeSet {s : DagStore} {c : String} : c ∈ nodeSet s ↔ c ∈ s.nodes := by
  simp [nodeSet]

theorem card_nodeSet (s : DagStore) : (nodeSet s).card = s.nodes.size := by
  have hnd : s.nodes.keys.Nodup := Std.ExtTreeMap.distinct_keys.imp (fun h heq => h (by simp [heq]))
  rw [nodeSet, List.toFinset_card_of_nodup hnd, Std.ExtTreeMap.length_keys]

/-- The second of the two pulls from the first, and they change places. -/
def turn (P : Prims) (F : Type) [FloatCodec F] (p : DagStore × DagStore) : DagStore × DagStore :=
  ((pull P F p.2 p.1).1, p.1)

/-- The same nodes, heads and view. -/
def Same (p : DagStore × DagStore) : Prop :=
  (∀ c, deltas p.1.nodes c = deltas p.2.nodes c) ∧ p.1.heads = p.2.heads ∧ p.1.view = p.2.view

/-- The next turn has a node to bring. -/
def Moves (p : DagStore × DagStore) : Prop := Brings p.1 (WantedHeads p.1 p.2) p.2

/-- Two stores that both have room for all of `cids`. -/
structure Pair (P : Prims) (F : Type) [FloatCodec F] (Q : Node → Prop) (cids : Finset String)
    (p : DagStore × DagStore) : Prop where
  left : LoopInv P F Q p.1 [] []
  right : LoopInv P F Q p.2 [] []
  left_room : cids.card ≤ p.1.cfg.max_nodes
  right_room : cids.card ≤ p.2.cfg.max_nodes

variable {cids : Finset String} {p : DagStore × DagStore}

theorem turn_pair (hq : Names P F Q) (h : Pair P F Q cids p) :
    Pair P F Q cids (turn P F p) ∧ nodeSet p.2 ⊆ nodeSet (turn P F p).1 := by
  obtain ⟨hinv, hsetup, hgrows⟩ := pull_inv hq h.left h.right
  refine ⟨⟨hinv, h.left, ?_, h.left_room⟩, fun c hc => ?_⟩
  · rw [turn, hsetup.2]
    exact h.right_room
  · exact mem_nodeSet.mpr (hgrows.mem (mem_nodeSet.mp hc))

/-- A store that lacks one of `cids` has room for another node. -/
theorem Pair.room (hsub : ∀ n, Q n → n.cid ∈ cids) (h : Pair P F Q cids p) {c : String}
    (hc : c ∈ cids) (hnew : c ∉ p.2.nodes) : p.2.nodes.size < p.2.cfg.max_nodes := by
  refine lt_of_lt_of_le ?_ h.right_room
  rw [← card_nodeSet]
  refine Finset.card_lt_card ⟨fun x hx => ?_, fun hcids => hnew (mem_nodeSet.mp (hcids hc))⟩
  obtain ⟨n, hn⟩ := StrMap.mem_iff_get.mp (mem_nodeSet.mp hx)
  exact h.right.nodes.node_cid x n hn ▸ hsub n (h.right.nodes.known x n (.inl hn))

/-- A turn with something to bring adds a node; any other changes none. -/
theorem turn_nodes (hq : Names P F Q) (hsub : ∀ n, Q n → n.cid ∈ cids) (h : Pair P F Q cids p) :
    (Moves p → nodeSet p.2 ⊂ nodeSet (turn P F p).1) ∧
      (¬ Moves p → nodeSet (turn P F p).1 = nodeSet p.2) := by
  obtain ⟨hkeep, hadd⟩ := pull_iff hq h.left h.right
  constructor
  · intro hmoves
    have hroom : p.2.nodes.size < p.2.cfg.max_nodes := by
      obtain ⟨c, -, n, hn, htakes⟩ := hmoves
      exact h.room hsub (hsub n (h.left.nodes.known c n (.inl hn))) htakes.new
    obtain ⟨c, hc, hnew⟩ := hadd hroom hmoves
    exact ⟨(turn_pair hq h).2, fun hle => hnew (mem_nodeSet.mp (hle (mem_nodeSet.mpr hc)))⟩
  · intro hstill
    rw [turn, nodeSet, nodeSet, hkeep (fun hm => hstill hm.2)]

theorem same_iff (hq : Names P F Q) (h : Pair P F Q cids p) :
    Same p ↔ nodeSet p.1 = nodeSet p.2 := by
  constructor
  · rintro ⟨hd, -⟩
    ext c
    rw [mem_nodeSet, mem_nodeSet, mem_iff_deltas, mem_iff_deltas, hd]
  · intro hset
    have hmem : ∀ c, c ∈ p.1.nodes ↔ c ∈ p.2.nodes := fun c => by
      rw [← mem_nodeSet, hset, mem_nodeSet]
    have hd : deltas p.1.nodes = deltas p.2.nodes := by
      funext c
      unfold deltas
      cases hn : p.1.nodes[c]? with
      | none =>
          have hb : c ∉ p.2.nodes := fun hc => by
            simpa [hn] using StrMap.mem_iff_get.mp ((hmem c).mpr hc)
          rw [StrMap.not_mem_iff_get.mp hb]
      | some n =>
          obtain ⟨n', hn'⟩ := StrMap.mem_iff_get.mp ((hmem c).mp (StrMap.mem_of_get hn))
          rw [hn', Option.map_some, Option.map_some, hq.common h.left h.right hn hn']
    exact ⟨congrFun hd, heads_view_eq h.left.nodes h.right.nodes hd⟩

/-- Stores with the same nodes have nothing to bring. -/
theorem Same.not_moves (hq : Names P F Q) (h : Pair P F Q cids p) (hs : Same p) : ¬ Moves p := by
  rintro ⟨c, -, n, hn, htakes⟩
  refine htakes.new ?_
  rw [h.left.nodes.node_cid c n hn, ← mem_nodeSet, ← (same_iff hq h).mp hs]
  exact mem_nodeSet.mpr (StrMap.mem_of_get hn)

/-- A turn that brings nothing leaves the two the same or not as before. -/
theorem same_turn (hq : Names P F Q) (hsub : ∀ n, Q n → n.cid ∈ cids) (h : Pair P F Q cids p)
    (hstill : ¬ Moves p) : Same (turn P F p) ↔ Same p := by
  rw [same_iff hq (turn_pair hq h).1, same_iff hq h, (turn_nodes hq hsub h).2 hstill]
  exact eq_comm

theorem turns_pair (hq : Names P F Q) (h : Pair P F Q cids p) (n : ℕ) :
    Pair P F Q cids ((turn P F)^[n] p) := by
  induction n with
  | zero => exact h
  | succ n ih =>
      rw [Function.iterate_succ_apply']
      exact (turn_pair hq ih).1

/-- What the two have together, never more than twice all of `cids`. -/
def measure (p : DagStore × DagStore) : ℕ := (nodeSet p.1).card + (nodeSet p.2).card

theorem measure_le (hsub : ∀ n, Q n → n.cid ∈ cids) (h : Pair P F Q cids p) :
    measure p ≤ 2 * cids.card := by
  have hle : ∀ {s : DagStore}, LoopInv P F Q s [] [] → (nodeSet s).card ≤ cids.card := by
    intro s hs
    refine Finset.card_le_card (fun c hc => ?_)
    obtain ⟨n, hn⟩ := StrMap.mem_iff_get.mp (mem_nodeSet.mp hc)
    exact hs.nodes.node_cid c n hn ▸ hsub n (hs.nodes.known c n (.inl hn))
  have h1 := hle h.left
  have h2 := hle h.right
  rw [measure]
  omega

theorem measure_turn (hq : Names P F Q) (hsub : ∀ n, Q n → n.cid ∈ cids) (h : Pair P F Q cids p) :
    measure p ≤ measure (turn P F p) ∧ (Moves p → measure p < measure (turn P F p)) := by
  have hle := Finset.card_le_card (turn_pair hq h).2
  refine ⟨?_, fun hmoves => ?_⟩
  · simp only [measure, turn] at hle ⊢
    omega
  · have hlt := Finset.card_lt_card ((turn_nodes hq hsub h).1 hmoves)
    simp only [measure, turn] at hlt ⊢
    omega

/-- The two never become the same unless some later turn moves a node, or
they are the same already. -/
theorem moves_of_same (hq : Names P F Q) (hsub : ∀ n, Q n → n.cid ∈ cids) :
    ∀ (k : ℕ) {p : DagStore × DagStore}, Pair P F Q cids p → Same ((turn P F)^[k] p) →
      Same p ∨ ∃ m, Moves ((turn P F)^[m] p) := by
  intro k
  induction k with
  | zero => exact fun _ hs => .inl hs
  | succ k ih =>
      intro p h hs
      by_cases hmoves : Moves p
      · exact .inr ⟨0, hmoves⟩
      · rw [Function.iterate_succ_apply] at hs
        refine (ih (turn_pair hq h).1 hs).imp (same_turn hq hsub h hmoves).mp ?_
        rintro ⟨m, hm⟩
        exact ⟨m + 1, by rwa [Function.iterate_succ_apply]⟩

/-- Once the same, always the same. -/
theorem same_turns (hq : Names P F Q) (hsub : ∀ n, Q n → n.cid ∈ cids) (h : Pair P F Q cids p)
    (hs : Same p) (n : ℕ) : Same ((turn P F)^[n] p) := by
  induction n with
  | zero => exact hs
  | succ n ih =>
      have hpair := turns_pair hq h n
      rw [Function.iterate_succ_apply']
      exact (same_turn hq hsub hpair (ih.not_moves hq hpair)).mpr ih

/-- If the two are never the same and a node moves again and again, there is
no end to the nodes. -/
theorem measure_unbounded (hq : Names P F Q) (hsub : ∀ n, Q n → n.cid ∈ cids)
    (h : Pair P F Q cids p) (hmoves : ∀ n, ∃ m, n ≤ m ∧ Moves ((turn P F)^[m] p)) (k : ℕ) :
    ∃ n, k ≤ measure ((turn P F)^[n] p) := by
  have hmono : Monotone (fun n => measure ((turn P F)^[n] p)) := by
    refine monotone_nat_of_le_succ (fun n => ?_)
    rw [Function.iterate_succ_apply']
    exact (measure_turn hq hsub (turns_pair hq h n)).1
  induction k with
  | zero => exact ⟨0, Nat.zero_le _⟩
  | succ k ih =>
      obtain ⟨n, hn⟩ := ih
      obtain ⟨m, hnm, hm⟩ := hmoves n
      have hle : measure ((turn P F)^[n] p) ≤ measure ((turn P F)^[m] p) := hmono hnm
      have hlt := (measure_turn hq hsub (turns_pair hq h m)).2 hm
      refine ⟨m + 1, ?_⟩
      rw [Function.iterate_succ_apply']
      omega

/-- The two become the same exactly if at every time they are, or some later
turn moves a node. -/
theorem turns_iff (hq : Names P F Q) (hsub : ∀ n, Q n → n.cid ∈ cids) (h : Pair P F Q cids p) :
    (∃ n, Same ((turn P F)^[n] p)) ↔
      ∀ n, Same ((turn P F)^[n] p) ∨ ∃ m, n ≤ m ∧ Moves ((turn P F)^[m] p) := by
  constructor
  · rintro ⟨k, hk⟩ n
    have hkn : Same ((turn P F)^[k] ((turn P F)^[n] p)) := by
      rw [← Function.iterate_add_apply, Nat.add_comm, Function.iterate_add_apply]
      exact same_turns hq hsub (turns_pair hq h k) hk n
    refine (moves_of_same hq hsub k (turns_pair hq h n) hkn).imp_right ?_
    rintro ⟨m, hm⟩
    exact ⟨m + n, Nat.le_add_left n m, by rwa [Function.iterate_add_apply]⟩
  · intro hall
    by_contra hnever
    have hmoves : ∀ n, ∃ m, n ≤ m ∧ Moves ((turn P F)^[m] p) :=
      fun n => (hall n).resolve_left (fun hs => hnever ⟨n, hs⟩)
    obtain ⟨n, hn⟩ := measure_unbounded hq hsub h hmoves (2 * cids.card + 1)
    have hle := measure_le hsub (turns_pair hq h n)
    omega

/-- When one pull brings `b` a node that `a` has and `b` lacks, and when
pulling in turn makes the two the same. -/
theorem turns_converge_iff {wires wires' : List String} (ha : Reached P F wires a)
    (hb : Reached P F wires' b) (hfree : CollisionFree P F {w | w ∈ wires ++ wires'})
    (ha_orphans : a.orphans = ∅) (hb_orphans : b.orphans = ∅)
    (ha_room : (nodeSet a ∪ nodeSet b).card ≤ a.cfg.max_nodes)
    (hb_room : (nodeSet a ∪ nodeSet b).card ≤ b.cfg.max_nodes) :
    (((∃ c ∈ a.nodes, c ∉ b.nodes) → ∃ c ∈ (pull P F b a).1.nodes, c ∉ b.nodes) ↔
      (∀ c ∈ a.nodes, c ∈ b.nodes) ∨ Brings a (WantedHeads a b) b) ∧
    ((∃ n, Same ((turn P F)^[n] (a, b))) ↔
      ∀ n, Same ((turn P F)^[n] (a, b)) ∨ ∃ m, n ≤ m ∧ Moves ((turn P F)^[m] (a, b))) := by
  have hinv_a := ha.inv (fun w hw => List.mem_append_left wires' hw) hfree
  have hinv_b := hb.inv (fun w hw => List.mem_append_right wires hw) hfree
  -- what either has now is all there will ever be
  have hmono : ∀ {s : DagStore}, s.orphans = ∅ → nodeSet s ⊆ nodeSet a ∪ nodeSet b →
      LoopInv P F (Carries P F {w | w ∈ wires ++ wires'}) s [] [] →
      LoopInv P F (fun n => Carries P F {w | w ∈ wires ++ wires'} n ∧
        n.cid ∈ nodeSet a ∪ nodeSet b) s [] [] := by
    intro s hempty hsub hs
    refine LoopInv.mono hs (fun c n hn => ⟨hs.nodes.known c n hn, ?_⟩)
    rcases hn with hn | hn
    · rw [hs.nodes.node_cid c n hn]
      exact hsub (mem_nodeSet.mpr (StrMap.mem_of_get hn))
    · simp [hempty] at hn
  have hq := names_of_carries (Q := fun n => Carries P F {w | w ∈ wires ++ wires'} n ∧
    n.cid ∈ nodeSet a ∪ nodeSet b) hfree (fun _ hn => hn.1)
  have hpair : Pair P F (fun n => Carries P F {w | w ∈ wires ++ wires'} n ∧
      n.cid ∈ nodeSet a ∪ nodeSet b) (nodeSet a ∪ nodeSet b) (a, b) :=
    ⟨hmono ha_orphans Finset.subset_union_left hinv_a,
      hmono hb_orphans Finset.subset_union_right hinv_b, ha_room, hb_room⟩
  refine ⟨?_, turns_iff hq (fun _ hn => hn.2) hpair⟩
  obtain ⟨hkeep, hadd⟩ := pull_iff hq hpair.left hpair.right
  constructor
  · intro h
    by_cases hlack : ∃ c ∈ a.nodes, c ∉ b.nodes
    · obtain ⟨c, hc, hnew⟩ := h hlack
      refine .inr ?_
      by_contra hbrings
      rw [hkeep (fun hm => hbrings hm.2)] at hc
      exact hnew hc
    · push Not at hlack
      exact .inl hlack
  · rintro (hall | hbrings)
    · rintro ⟨c, hc, hnew⟩
      exact absurd (hall c hc) hnew
    · rintro ⟨c, hc, hnew⟩
      refine hadd (hpair.room (fun _ hn => hn.2) (c := c) ?_ hnew) hbrings
      exact Finset.mem_union_left _ (mem_nodeSet.mpr hc)

/-! ## Follow-up wants -/

/-- What is missing of the orphans is what is asked for in a follow-up. -/
theorem wantsFor_missing {s : DagStore} (hs : LoopInv P F Q s [] []) :
    {c | c ∈ wantsFor s s.missingParents} = MissingParents s := by
  ext c
  rw [Set.mem_ofPred_eq, mem_wantsFor, MissingParents]
  have hset : {p | p ∈ s.missingParents ∧ s.knows p = false} = {p | s.knows p = false ∧
      ∃ (c : String) (o : Node), s.orphans[c]? = some o ∧ p ∈ o.delta.parents} := by
    ext p
    simp only [Set.mem_ofPred_eq, missingParents, List.mem_filter, Std.ExtTreeMap.mem_keys,
      Bool.not_eq_true']
    constructor
    · rintro ⟨⟨hp, -⟩, hknow⟩
      obtain ⟨ws, hws⟩ := StrMap.mem_iff_get.mp hp
      have hne := hs.consistent.no_empty p ws hws
      obtain ⟨w, hw⟩ : ∃ w, w ∈ ws := by
        by_contra hnone
        push Not at hnone
        exact hne (Std.ExtTreeSet.eq_empty_iff_forall_not_mem.mpr hnone)
      obtain ⟨-, o, ho, hpo⟩ := (hs.consistent.waiting p w).mp ⟨ws, hws, hw⟩
      exact ⟨hknow, w, o, ho, hpo⟩
    · rintro ⟨hknow, w, o, ho, hpo⟩
      have hnode : p ∉ s.nodes := fun hmem => by simp [knows, hmem] at hknow
      obtain ⟨ws, hws, -⟩ := (hs.consistent.waiting p w).mpr ⟨hnode, o, ho, hpo⟩
      exact ⟨⟨StrMap.mem_of_get hws, hknow⟩, hknow⟩
  rw [hset]

/-- The want that an ingested batch ends with. -/
theorem answer_want (b a : DagStore) (w : Want) : (answer P F b a w).2 =
    if wantsFor (answer P F b a w).1 (answer P F b a w).1.missingParents = [] then none
    else some (want (answer P F b a w).1
      (wantsFor (answer P F b a w).1 (answer P F b a w).1.missingParents)) := rfl

/-- The follow-up want of every round is the one its store calls for. -/
theorem pullFollow_want : ∀ {n : ℕ} {s : DagStore} {w : Want},
    pullFollow P F b a n = (s, some w) → w = want s (wantsFor s s.missingParents) ∧
      wantsFor s s.missingParents ≠ []
  | 0, s, w, h => by
      unfold pullFollow pull at h
      split at h
      · simp at h
      · next w' _ =>
        have hw := answer_want (P := P) (F := F) b a w'
        rw [h] at hw
        dsimp only at hw
        split_ifs at hw with hnil
        exact ⟨Option.some.inj hw, hnil⟩
  | n + 1, s, w, h => by
      rw [pullFollow] at h
      split at h
      · simp at h
      · next s' w' _ =>
        have hw := answer_want (P := P) (F := F) s' a w'
        rw [h] at hw
        dsimp only at hw
        split_ifs at hw with hnil
        exact ⟨Option.some.inj hw, hnil⟩

theorem pullFollow_inv (hq : Names P F Q) (ha : LoopInv P F Q a [] []) (hb : LoopInv P F Q b [] [])
    (n : ℕ) : LoopInv P F Q (pullFollow P F b a n).1 [] [] ∧
      SameSetup b (pullFollow P F b a n).1 ∧ Grows b (pullFollow P F b a n).1 := by
  induction n with
  | zero => exact pull_inv hq ha hb
  | succ n ih =>
      rw [pullFollow]
      split
      · next s heq => exact heq ▸ ih
      · next s w heq =>
        rw [heq] at ih
        obtain ⟨rfl, -⟩ := pullFollow_want heq
        obtain ⟨h1, hs1, hg1⟩ := ih
        obtain ⟨h2, hs2, hg2⟩ := answer_inv hq ha h1 (length_wantsFor s s.missingParents)
        exact ⟨h2, hs1.trans hs2, fun c x hx => hg2 c x (hg1 c x hx)⟩

theorem nodes_eq_of_grows {s : DagStore} (hg : Grows b s) (h : ¬ ∃ c ∈ s.nodes, c ∉ b.nodes) :
    s.nodes = b.nodes := by
  refine StrMap.ext (fun c => ?_)
  cases hc : s.nodes[c]? with
  | none =>
      cases hb : b.nodes[c]? with
      | none => rfl
      | some n => rw [← hc, hg c n hb]
  | some n =>
      have hmem : c ∈ b.nodes := by
        by_contra hnew
        exact h ⟨c, StrMap.mem_of_get hc, hnew⟩
      obtain ⟨n', hn'⟩ := StrMap.mem_iff_get.mp hmem
      rw [hn', ← hc, hg c n' hn']

/-- Some answer, to the heads or to a follow-up, brings a node. -/
def Supplied (P : Prims) (F : Type) [FloatCodec F] (a b : DagStore) : Prop :=
  Brings a (WantedHeads a b) b ∨
    ∃ n s w, pullFollow P F b a n = (s, some w) ∧ Brings a (MissingParents s) s

/-- The pull and its follow-ups add a node exactly if there is room and one
of the answers brings one. -/
theorem pullFollow_iff (hq : Names P F Q) (ha : LoopInv P F Q a [] []) (hb : LoopInv P F Q b [] []) :
    (∃ n, ∃ c ∈ (pullFollow P F b a n).1.nodes, c ∉ b.nodes) ↔
      b.nodes.size < b.cfg.max_nodes ∧ Supplied P F a b := by
  obtain ⟨hkeep, hadd⟩ := pull_iff hq ha hb
  constructor
  · rintro ⟨n, hn⟩
    induction n with
    | zero =>
        by_contra hnot
        obtain ⟨c, hc, hnew⟩ := hn
        rw [pullFollow, hkeep (fun h => hnot ⟨h.1, .inl h.2⟩)] at hc
        exact hnew hc
    | succ n ih =>
        by_cases hbefore : ∃ c ∈ (pullFollow P F b a n).1.nodes, c ∉ b.nodes
        · exact ih hbefore
        obtain ⟨hinv, hsetup, hgrows⟩ := pullFollow_inv hq ha hb n
        have hsame := nodes_eq_of_grows hgrows hbefore
        rw [pullFollow] at hn
        split at hn
        · next s heq =>
          rw [heq] at hbefore
          exact absurd hn hbefore
        · next s w heq =>
          rw [heq] at hinv hsetup hsame
          obtain ⟨hwant, -⟩ := pullFollow_want heq
          obtain ⟨hkeep', -⟩ := answer_iff hq ha hinv (length_wantsFor s s.missingParents)
          rw [wantsFor_missing hinv, ← hwant, hsame, hsetup.2] at hkeep'
          by_contra hnot
          rw [hkeep' (fun h => hnot ⟨h.1, .inr ⟨n, s, w, heq, h.2⟩⟩)] at hn
          obtain ⟨c, hc, hnew⟩ := hn
          exact hnew hc
  · rintro ⟨hroom, hbrings | ⟨n, s, w, heq, hbrings⟩⟩
    · exact ⟨0, hadd hroom hbrings⟩
    · by_cases hbefore : ∃ c ∈ (pullFollow P F b a n).1.nodes, c ∉ b.nodes
      · exact ⟨n, hbefore⟩
      obtain ⟨hinv, hsetup, hgrows⟩ := pullFollow_inv hq ha hb n
      have hsame := nodes_eq_of_grows hgrows hbefore
      rw [heq] at hinv hsetup hsame
      obtain ⟨hwant, -⟩ := pullFollow_want heq
      obtain ⟨-, hadd'⟩ := answer_iff hq ha hinv (length_wantsFor s s.missingParents)
      rw [wantsFor_missing hinv, ← hwant, hsame, hsetup.2] at hadd'
      refine ⟨n + 1, ?_⟩
      rw [pullFollow, heq]
      exact hadd' hroom hbrings

/-! ### Where everything is read -/

/-- An answer in which everything is known leaves the store as it was. -/
theorem answer_known (hq : Names P F Q) (ha : LoopInv P F Q a [] []) (hreads : Reads b a)
    {cids : List String} (hlen : cids.length ≤ MAX_WANT)
    (h : ∀ c ∈ Sent a {r | r ∈ cids} b, c ∈ b.nodes) : (answer P F b a (want b cids)).1 = b := by
  rw [answer_store]
  have hbatch : ∀ n ∈ batch a cids (heads b), a.nodes[n.cid]? = some n ∧ n.cid ∈ b.nodes := by
    intro n hn
    obtain ⟨hna, hsent⟩ := (mem_batch ha hlen).mp hn
    exact ⟨hna, h n.cid hsent⟩
  change insertWires P F b ((batch a cids (heads b)).map Node.wire) = b
  generalize batch a cids (heads b) = l at hbatch
  induction l with
  | nil => rfl
  | cons n l ih =>
      obtain ⟨hna, hnb⟩ := hbatch n (by simp)
      have hone : (b.insertWire P F n.wire).2 = b := by
        rw [insertWire_store, hq.resend n (ha.nodes.known _ n (.inl hna)),
          if_pos (hreads n.cid n hna)]
        simp [knows, hnb]
      change insertWires P F (b.insertWire P F n.wire).2 (l.map Node.wire) = b
      rw [hone]
      exact ih (fun m hm => hbatch m (List.mem_cons_of_mem _ hm))

theorem pull_known (hq : Names P F Q) (ha : LoopInv P F Q a [] []) (hreads : Reads b a)
    (h : ∀ c ∈ Sent a (WantedHeads a b) b, c ∈ b.nodes) : (pull P F b a).1 = b := by
  unfold pull onHave
  dsimp only
  by_cases hnil : wantsFor b (heads a) = []
  · rw [if_pos hnil]
  · rw [if_neg hnil]
    refine answer_known hq ha hreads (length_wantsFor b (heads a)) (fun c hc => h c ?_)
    rwa [wantsFor_heads] at hc

/-- If the first answer brings nothing, the store stays what it is and goes
on asking for the same. -/
theorem pullFollow_stuck (hq : Names P F Q) (ha : LoopInv P F Q a [] [])
    (hb : LoopInv P F Q b [] []) (hreads : Reads b a) (hfirst : ¬ Brings a (WantedHeads a b) b)
    (hnext : ¬ Brings a (MissingParents b) b) (n : ℕ) : (pullFollow P F b a n).1 = b := by
  have hknown : ∀ {cids : List String}, cids.length ≤ MAX_WANT → ¬ Brings a {r | r ∈ cids} b →
      (answer P F b a (want b cids)).1 = b := by
    intro cids hlen hnot
    refine answer_known hq ha hreads hlen (fun c hc => ?_)
    by_contra hnew
    exact hnot ((brings_of_reads hq ha hb hreads).mpr ⟨c, hc, hnew⟩)
  induction n with
  | zero =>
      unfold pullFollow pull onHave
      dsimp only
      by_cases hnil : wantsFor b (heads a) = []
      · rw [if_pos hnil]
      · rw [if_neg hnil]
        refine hknown (length_wantsFor b (heads a)) ?_
        rwa [wantsFor_heads]
  | succ n ih =>
      rw [pullFollow]
      split
      · next s heq => exact (congrArg Prod.fst heq).symm.trans ih
      · next s w heq =>
        obtain ⟨rfl, -⟩ := pullFollow_want heq
        rw [heq] at ih
        obtain rfl := ih
        exact hknown (length_wantsFor _ _) (wantsFor_missing hb ▸ hnext)

/-- Where `b` reads all that `a` has, only the first two answers matter. -/
theorem supplied_iff (hq : Names P F Q) (ha : LoopInv P F Q a [] []) (hb : LoopInv P F Q b [] [])
    (hreads : Reads b a) (hroom : b.nodes.size < b.cfg.max_nodes) :
    Supplied P F a b ↔ (∃ h, h ∈ a.heads ∧ b.knows h = false) ∧
      (Brings a (WantedHeads a b) b ∨ Brings a (MissingParents b) b) := by
  by_cases hnil : wantsFor b (heads a) = []
  · -- nothing is asked for, and nothing happens
    have hnone : ∀ n, pullFollow P F b a n = (b, none) := by
      intro n
      induction n with
      | zero =>
          unfold pullFollow pull onHave
          dsimp only
          rw [if_pos hnil]
      | succ n ih => rw [pullFollow, ih]
    constructor
    · rintro (hbrings | ⟨n, s, w, heq, -⟩)
      · exact absurd hbrings (not_brings_of_nil hnil)
      · simp [hnone] at heq
    · rintro ⟨⟨h, hh, hknow⟩, -⟩
      simp [wantsFor_eq_nil.mp hnil h hh] at hknow
  · have hasks : ∃ h, h ∈ a.heads ∧ b.knows h = false := by
      by_contra hnone
      refine hnil (wantsFor_eq_nil.mpr (fun h hh => ?_))
      by_contra hknow
      exact hnone ⟨h, hh, by simpa using hknow⟩
    by_cases hfirst : Brings a (WantedHeads a b) b
    · exact ⟨fun _ => ⟨hasks, .inl hfirst⟩, fun _ => .inl hfirst⟩
    constructor
    · intro h
      refine ⟨hasks, .inr ?_⟩
      by_contra hnext
      obtain ⟨n, c, hc, hnew⟩ := (pullFollow_iff hq ha hb).mpr ⟨hroom, h⟩
      rw [pullFollow_stuck hq ha hb hreads hfirst hnext] at hc
      exact hnew hc
    · rintro ⟨-, hbrings | hbrings⟩
      · exact .inl hbrings
      · -- the follow-up of the first, empty-handed answer
        have hstuck : (answer P F b a (want b (wantsFor b (heads a)))).1 = b := by
          refine answer_known hq ha hreads (length_wantsFor b (heads a)) (fun c hc => ?_)
          by_contra hnew
          rw [wantsFor_heads] at hc
          exact hfirst ((brings_of_reads hq ha hb hreads).mpr ⟨c, hc, hnew⟩)
        have hmissing : wantsFor b b.missingParents ≠ [] := by
          intro hempty
          obtain ⟨c, hc, -⟩ := hbrings
          obtain ⟨⟨r, hr, -, -⟩, -⟩ := firstN_subset _ _ _ hc
          rw [← wantsFor_missing hb, Set.mem_ofPred_eq, hempty] at hr
          simp at hr
        refine .inr ⟨0, b, want b (wantsFor b b.missingParents), ?_, hbrings⟩
        unfold pullFollow pull onHave
        dsimp only
        rw [if_neg hnil]
        refine Prod.ext hstuck ?_
        rw [answer_want, hstuck, if_neg hmissing]

/-- When the pull and its follow-ups bring `b` a node, given that a head of
`a` is none. -/
theorem followUps_iff {wires wires' : List String} (ha : Reached P F wires a)
    (hb : Reached P F wires' b) (hfree : CollisionFree P F {w | w ∈ wires ++ wires'}) :
    ((((∃ h, h ∈ a.heads ∧ h ∉ b.nodes) →
        ∃ n, ∃ c ∈ (pullFollow P F b a n).1.nodes, c ∉ b.nodes) ∧
      (onHave b (heads a) = none → ∀ h, h ∈ a.heads → h ∈ b.nodes)) ↔
      (∀ h, h ∈ a.heads → h ∈ b.nodes) ∨
        (b.nodes.size < b.cfg.max_nodes ∧ Supplied P F a b)) ∧
    (Reads b a → b.nodes.size < b.cfg.max_nodes →
      (Supplied P F a b ↔ (∃ h, h ∈ a.heads ∧ b.knows h = false) ∧
        (Brings a (WantedHeads a b) b ∨ Brings a (MissingParents b) b))) := by
  have hinv_a := ha.inv (fun w hw => List.mem_append_left wires' hw) hfree
  have hinv_b := hb.inv (fun w hw => List.mem_append_right wires hw) hfree
  have hq := names_of_carries hfree (fun n (hn : Carries P F {w | w ∈ wires ++ wires'} n) => hn)
  refine ⟨?_, fun hreads hroom => supplied_iff hq hinv_a hinv_b hreads hroom⟩
  rw [pullFollow_iff hq hinv_a hinv_b]
  constructor
  · rintro ⟨hbring, -⟩
    by_cases hall : ∀ h, h ∈ a.heads → h ∈ b.nodes
    · exact .inl hall
    · push Not at hall
      exact .inr (hbring hall)
  · rintro (hall | hsupplied)
    · exact ⟨fun ⟨h, hh, hnew⟩ => absurd (hall h hh) hnew, fun _ => hall⟩
    · refine ⟨fun _ => hsupplied, fun hnone => ?_⟩
      -- a store that asks for nothing is supplied with nothing
      have hnil : wantsFor b (heads a) = [] := by
        unfold onHave at hnone
        dsimp only at hnone
        split_ifs at hnone with hnil
        exact hnil
      obtain ⟨n, c, hc, hnew⟩ := (pullFollow_iff hq hinv_a hinv_b).mpr hsupplied
      have hstays : ∀ n, pullFollow P F b a n = (b, none) := by
        intro n
        induction n with
        | zero => rw [pullFollow, pull, hnone]
        | succ n ih => rw [pullFollow, ih]
      rw [hstays] at hc
      exact absurd hc hnew

end

end Sync

end Secdogie.Graph
