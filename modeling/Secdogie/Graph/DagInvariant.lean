/-
# `Secdogie.Graph.DagInvariant` — what holds of every store

The indexes of the store depend on each other, and each routine breaks some
clause for a while: between the insertion of a node and the end of `promote`
there are orphans with no missing parent.  So the invariant is stated with
the worklist in it.  `OrphanInv s work todo` says what the waiting index and
the orphan buffer hold while the cids in `work` are nodes whose waiters have
not been looked at, and the waiters in `todo` are the ones being looked at;
between calls both are empty.  `NodeInv` is about nodes, heads and view,
which only `accept` touches.

Each routine has one lemma that says what it does (`waits_unwait`,
`accept_ok`, `promoteOne_cases`, ...); the invariants follow from those.
-/
import Secdogie.Graph.TopologyView

namespace Secdogie.Graph

namespace DagStore

/-! ## The waiting index -/

/-- `w` is filed as waiting for `p`. -/
def Waits (m : StrMap StrSet) (p w : String) : Prop := ∃ ws, m[p]? = some ws ∧ w ∈ ws

/-- No entry of the index is empty. -/
def NoEmpty (m : StrMap StrSet) : Prop := ∀ (p : String) ws, m[p]? = some ws → ws ≠ ∅

theorem waits_unwait {m : StrMap StrSet} {w p q x : String} :
    Waits (unwait w m p) q x ↔ Waits m q x ∧ ¬ (q = p ∧ x = w) := by
  unfold unwait
  cases hp : m[p]? with
  | none =>
      refine ⟨fun h => ⟨h, ?_⟩, fun h => h.1⟩
      rintro ⟨rfl, -⟩
      obtain ⟨ws, hws, -⟩ := h
      simp [hp] at hws
  | some ws =>
      dsimp only
      by_cases hq : q = p
      · subst hq
        split_ifs with hempty
        · simp only [Waits, StrMap.get_erase, if_true, reduceCtorEq, false_and, exists_false,
            false_iff, true_and]
          rintro ⟨⟨ws', hws', hx⟩, hne⟩
          obtain rfl := Option.some.inj (hp.symm.trans hws')
          have : x ∈ ws.erase w := StrSet.mem_erase.mpr ⟨Ne.symm hne, hx⟩
          simp [hempty] at this
        · simp only [Waits, StrMap.get_insert, if_true, Option.some.injEq, exists_eq_left',
            StrSet.mem_erase, hp, true_and]
          rw [and_comm, ne_comm]
      · split_ifs <;> simp [Waits, hq, Ne.symm hq]

theorem noEmpty_unwait {m : StrMap StrSet} {w p : String} (h : NoEmpty m) :
    NoEmpty (unwait w m p) := by
  unfold unwait
  cases hp : m[p]? with
  | none => exact h
  | some ws =>
      dsimp only
      split_ifs with hempty
      · intro q ws' hws'
        rw [StrMap.get_erase] at hws'
        split_ifs at hws'
        exact h q ws' hws'
      · intro q ws' hws'
        rw [StrMap.get_insert] at hws'
        split_ifs at hws'
        · obtain rfl := Option.some.inj hws'
          exact hempty
        · exact h q ws' hws'

theorem waits_foldl_unwait {w q x : String} : ∀ {ps : List String} {m : StrMap StrSet},
    Waits (ps.foldl (unwait w) m) q x ↔ Waits m q x ∧ ¬ (q ∈ ps ∧ x = w)
  | [], m => by simp
  | p :: ps, m => by
      rw [List.foldl_cons, waits_foldl_unwait, waits_unwait, List.mem_cons]
      tauto

theorem noEmpty_foldl_unwait {w : String} : ∀ {ps : List String} {m : StrMap StrSet},
    NoEmpty m → NoEmpty (ps.foldl (unwait w) m)
  | [], _, h => h
  | p :: ps, m, h => by
      rw [List.foldl_cons]
      exact noEmpty_foldl_unwait (noEmpty_unwait h)

theorem waits_wait {m : StrMap StrSet} {w p q x : String} :
    Waits (wait w m p) q x ↔ Waits m q x ∨ (q = p ∧ x = w) := by
  unfold wait Waits
  by_cases hq : p = q
  · subst hq
    cases hp : m[p]? with
    | none => simp [@eq_comm _ w x]
    | some ws => simp [@eq_comm _ w x, or_comm]
  · simp [hq, Ne.symm hq]

theorem noEmpty_wait {m : StrMap StrSet} {w p : String} (h : NoEmpty m) :
    NoEmpty (wait w m p) := by
  intro q ws hws
  rw [wait, StrMap.get_insert] at hws
  split_ifs at hws
  · obtain rfl := Option.some.inj hws
    intro hempty
    have : w ∈ ((m[p]?).getD ∅).insert w := StrSet.mem_insert.mpr (.inl rfl)
    simp [hempty] at this
  · exact h q ws hws

theorem waits_foldl_wait {w q x : String} : ∀ {ps : List String} {m : StrMap StrSet},
    Waits (ps.foldl (wait w) m) q x ↔ Waits m q x ∨ (q ∈ ps ∧ x = w)
  | [], m => by simp
  | p :: ps, m => by
      rw [List.foldl_cons, waits_foldl_wait, waits_wait, List.mem_cons]
      tauto

theorem noEmpty_foldl_wait {w : String} : ∀ {ps : List String} {m : StrMap StrSet},
    NoEmpty m → NoEmpty (ps.foldl (wait w) m)
  | [], _, h => h
  | p :: ps, m, h => by
      rw [List.foldl_cons]
      exact noEmpty_foldl_wait (noEmpty_wait h)

theorem mem_missing {s : DagStore} {d : GraphDelta} {p : String} :
    p ∈ s.missing d ↔ p ∈ d.parents ∧ p ∉ s.nodes := by
  simp [missing]

/-! ## The orphan buffer -/

/-- The orphan half of the invariant, in the middle of a promotion: the cids
in `work` are nodes whose waiters are still to be looked at, the orphans in
`todo` are the waiters being looked at. -/
structure OrphanInv (s : DagStore) (work todo : List String) : Prop where
  orphan_cid : ∀ (c : String) o, s.orphans[c]? = some o → o.cid = c
  disjoint : ∀ c, c ∈ s.orphans → c ∉ s.nodes
  misses : ∀ (c : String) o, s.orphans[c]? = some o →
    c ∈ todo ∨ ∃ p ∈ o.delta.parents, p ∉ s.nodes ∨ p ∈ work
  waiting : ∀ p w : String, Waits s.waiting_on p w ↔
    ∃ o, s.orphans[w]? = some o ∧ p ∈ o.delta.parents ∧ (p ∉ s.nodes ∨ p ∈ work)
  no_empty : NoEmpty s.waiting_on
  order_nodup : s.orphan_order.Nodup
  order_mem : ∀ c, c ∈ s.orphan_order ↔ c ∈ s.orphans
  /-- without a limit (`max_orphans = 0`) the newest orphan is kept -/
  orphans_le : s.orphans.size ≤ max 1 s.cfg.max_orphans
  work_nodup : work.Nodup
  work_nodes : ∀ c ∈ work, c ∈ s.nodes

/-- What `forgetOrphan` does with an orphan, and with the two routines
around it. -/
theorem forgetOrphan_eq {s : DagStore} {c : String} {o : Node} (h : s.orphans[c]? = some o) :
    s.forgetOrphan c = { s with
      orphans := s.orphans.erase c
      waiting_on := o.delta.parents.foldl (unwait c) s.waiting_on
      orphan_order := s.orphan_order.filter (· != c) } := by
  simp [forgetOrphan, h]

theorem orphanInv_forget {s : DagStore} {work todo : List String} {c : String} {o : Node}
    (h : OrphanInv s work todo) (hc : s.orphans[c]? = some o) :
    OrphanInv (s.forgetOrphan c) work todo := by
  rw [forgetOrphan_eq hc]
  refine ⟨fun a x => ?_, fun a => ?_, fun a x => ?_, fun p w => ?_, ?_, ?_, fun a => ?_, ?_,
    h.work_nodup, h.work_nodes⟩
  · simp only [StrMap.get_erase]
    split_ifs
    · simp
    · exact h.orphan_cid a x
  · simp only [StrMap.mem_erase]
    exact fun ha => h.disjoint a ha.2
  · simp only [StrMap.get_erase]
    split_ifs
    · simp
    · exact h.misses a x
  · simp only [waits_foldl_unwait, StrMap.get_erase, h.waiting]
    constructor
    · rintro ⟨⟨x, hx, hp, hm⟩, hne⟩
      have hcw : c ≠ w := by
        rintro rfl
        obtain rfl := Option.some.inj (hc.symm.trans hx)
        exact hne ⟨hp, rfl⟩
      exact ⟨x, by simpa [hcw] using hx, hp, hm⟩
    · rintro ⟨x, hx, hp, hm⟩
      split_ifs at hx with hcw
      exact ⟨⟨x, hx, hp, hm⟩, fun hne => hcw hne.2.symm⟩
  · exact noEmpty_foldl_unwait h.no_empty
  · exact h.order_nodup.filter _
  · simp only [List.mem_filter, bne_iff_ne, StrMap.mem_erase, h.order_mem]
    rw [and_comm, ne_comm]
  · exact (Std.ExtTreeMap.size_erase_le).trans h.orphans_le

/-- Popping the queue before forgetting its head makes no difference. -/
theorem forgetOrphan_pop {s : DagStore} {old : String} {rest : List String}
    (h : s.orphan_order = old :: rest) :
    forgetOrphan { s with orphan_order := rest } old = s.forgetOrphan old := by
  cases ho : s.orphans[old]? with
  | none => simp [forgetOrphan, ho, h]
  | some o =>
      rw [forgetOrphan_eq (s := { s with orphan_order := rest }) (o := o) ho, forgetOrphan_eq ho]
      simp [h]

/-- Eviction leaves the store as it is or forgets one orphan. -/
theorem evict_cases {s : DagStore} {work todo : List String} (h : OrphanInv s work todo) :
    (s.evict = s ∧ s.orphans.size < max 1 s.cfg.max_orphans) ∨
    ∃ old o, s.orphans[old]? = some o ∧ s.evict = s.forgetOrphan old := by
  unfold evict
  split_ifs with hfull
  · cases horder : s.orphan_order with
    | nil =>
        refine .inl ⟨rfl, ?_⟩
        have hempty : s.orphans = ∅ := StrMap.ext (fun a => by
          have : a ∉ s.orphans := fun ha => by simpa [horder] using (h.order_mem a).mpr ha
          rw [StrMap.not_mem_iff_get.mp this, StrMap.get_empty])
        simp [hempty]
    | cons old rest =>
        have hold : old ∈ s.orphans := (h.order_mem old).mp (by simp [horder])
        obtain ⟨o, ho⟩ := StrMap.mem_iff_get.mp hold
        exact .inr ⟨old, o, ho, forgetOrphan_pop horder⟩
  · exact .inl ⟨rfl, by omega⟩

/-- What `evict` changes: it may drop one orphan, never anything else. -/
theorem evict_frame {s : DagStore} {work todo : List String} (h : OrphanInv s work todo) :
    OrphanInv s.evict work todo ∧ s.evict.nodes = s.nodes ∧ s.evict.heads = s.heads ∧
      s.evict.view = s.view ∧ s.evict.cfg = s.cfg ∧ s.evict.trust = s.trust ∧
      (∀ (c : String) o, s.evict.orphans[c]? = some o → s.orphans[c]? = some o) ∧
      s.evict.orphans.size < max 1 s.cfg.max_orphans := by
  rcases evict_cases h with ⟨heq, hsize⟩ | ⟨old, o, ho, heq⟩
  · rw [heq]
    exact ⟨h, rfl, rfl, rfl, rfl, rfl, fun _ _ hc => hc, hsize⟩
  · rw [heq]
    refine ⟨orphanInv_forget h ho, ?_⟩
    rw [forgetOrphan_eq ho]
    refine ⟨rfl, rfl, rfl, rfl, rfl, fun c x hx => ?_, ?_⟩
    · simp only [StrMap.get_erase] at hx
      split_ifs at hx
      exact hx
    · have := StrMap.size_erase_mem (StrMap.mem_of_get ho)
      have := h.orphans_le
      dsimp only
      omega

theorem orphanInv_hold {s : DagStore} {n : Node} (h : OrphanInv s [] []) (hnode : n.cid ∉ s.nodes) (horphan : n.cid ∉ s.orphans)
    (hmiss : s.missing n.delta ≠ []) : OrphanInv (s.hold n) [] [] := by
  obtain ⟨he, hnodes, -, -, hcfg, -, hsub, hsize⟩ := evict_frame h
  have hmissing : s.evict.missing n.delta = s.missing n.delta := by rw [missing, missing, hnodes]
  have hfresh : n.cid ∉ s.evict.orphans := fun hc => by
    obtain ⟨o, ho⟩ := StrMap.mem_iff_get.mp hc
    exact horphan (StrMap.mem_of_get (hsub _ o ho))
  unfold hold
  refine ⟨fun a x => ?_, fun a => ?_, fun a x => ?_, fun p w => ?_, ?_, ?_, fun a => ?_, ?_,
    List.nodup_nil, by simp⟩
  · simp only [StrMap.get_insert]
    split_ifs with ha
    · rintro hx
      obtain rfl := Option.some.inj hx
      exact ha
    · exact he.orphan_cid a x
  · simp only [StrMap.mem_insert]
    rintro (rfl | ha)
    · rwa [hnodes]
    · exact he.disjoint a ha
  · simp only [StrMap.get_insert]
    split_ifs with ha
    · rintro hx
      obtain rfl := Option.some.inj hx
      obtain ⟨p, hp⟩ := List.exists_mem_of_ne_nil _ hmiss
      obtain ⟨hp, hpn⟩ := mem_missing.mp hp
      exact .inr ⟨p, hp, .inl (by rwa [hnodes])⟩
    · exact he.misses a x
  · simp only [waits_foldl_wait, StrMap.get_insert, he.waiting, hmissing, mem_missing]
    constructor
    · rintro (⟨x, hx, hp⟩ | ⟨⟨hp, hpn⟩, rfl⟩)
      · have hne : n.cid ≠ w := by
          rintro rfl
          exact hfresh (StrMap.mem_of_get hx)
        exact ⟨x, by simpa [hne] using hx, hp⟩
      · exact ⟨n, by simp, hp, .inl (by rwa [hnodes])⟩
    · rintro ⟨x, hx, hp, hpn⟩
      split_ifs at hx with hw
      · obtain rfl := Option.some.inj hx
        refine .inr ⟨⟨hp, ?_⟩, hw.symm⟩
        simpa [hnodes] using hpn
      · exact .inl ⟨x, hx, hp, hpn⟩
  · exact noEmpty_foldl_wait he.no_empty
  · refine List.nodup_append.mpr ⟨he.order_nodup, List.nodup_singleton _, ?_⟩
    rintro a ha b hb rfl
    rw [List.mem_singleton] at hb
    exact hfresh ((he.order_mem _).mp (hb ▸ ha))
  · simp only [List.mem_append, List.mem_singleton, StrMap.mem_insert, he.order_mem]
    rw [or_comm, @eq_comm _ a]
  · simp only [StrMap.size_insert_new hfresh, hcfg]
    omega

/-! ## Nodes, heads and view -/

/-- The lamport of a node, 0 where there is none. -/
def lamportOf (nodes : StrMap Node) (c : String) : Nat :=
  match nodes[c]? with
  | none => 0
  | some n => n.delta.lamport

theorem foldl_max_eq_sup (l : List Nat) (a : Nat) : l.foldl max a = max a (l.toFinset.sup id) := by
  induction l generalizing a with
  | nil => simp
  | cons b l ih => simp [ih, max_assoc]

/-- The lamport `accept` asks for: one more than that of the highest parent. -/
theorem expectedLamport_eq (s : DagStore) (d : GraphDelta) :
    s.expectedLamport d = 1 + d.parents.toFinset.sup (lamportOf s.nodes) := by
  have hsup : ∀ ps : List String, ((ps.filterMap (fun p => s.nodes[p]?)).map
      (fun n => n.delta.lamport)).toFinset.sup id = ps.toFinset.sup (lamportOf s.nodes) := by
    intro ps
    induction ps with
    | nil => rfl
    | cons p ps ih =>
        cases hp : s.nodes[p]? with
        | none => simp [hp, ih, lamportOf]
        | some n => simp [hp, ih, lamportOf]
  rw [expectedLamport, maxLamport, foldl_max_eq_sup, hsup, Nat.zero_max]

/-- The operations of all nodes. -/
def opsOf (nodes : StrMap Node) : Set Op := {op | ∃ (c : String) (n : Node),
  nodes[c]? = some n ∧ op ∈ n.delta.ops}

section

variable (P : Prims) (F : Type) [FloatCodec F]

/-- The node half of the invariant.  `Q` is what is known of every delta
that came in. -/
structure NodeInv (Q : Node → Prop) (s : DagStore) : Prop where
  node_cid : ∀ (c : String) n, s.nodes[c]? = some n → n.cid = c
  parent_node : ∀ (c : String) n, s.nodes[c]? = some n → ∀ p ∈ n.delta.parents, p ∈ s.nodes
  lamport : ∀ (c : String) n, s.nodes[c]? = some n →
    n.delta.lamport = 1 + n.delta.parents.toFinset.sup (lamportOf s.nodes)
  heads : ∀ c, c ∈ s.heads ↔ c ∈ s.nodes ∧
    ∀ (c' : String) n, s.nodes[c']? = some n → c ∉ n.delta.parents
  view : s.view.IsUnion P F (opsOf s.nodes)
  nodes_le : s.nodes.size ≤ s.cfg.max_nodes
  known : ∀ (c : String) n, s.nodes[c]? = some n ∨ s.orphans[c]? = some n → Q n

/-- The invariant in the middle of a promotion. -/
structure LoopInv (Q : Node → Prop) (s : DagStore) (work todo : List String) : Prop where
  nodes : NodeInv P F Q s
  orphans : OrphanInv s work todo

end

section

variable {P : Prims} {F : Type} [FloatCodec F] {Q : Node → Prop}

/-- What `accept` does when it does not refuse. -/
theorem accept_ok {s s' : DagStore} {n : Node} (h : accept P F s n = .ok s') :
    n.delta.lamport = s.expectedLamport n.delta ∧ s.nodes.size < s.cfg.max_nodes ∧
    s' = { s with
      heads := (n.delta.parents.foldl (fun heads p => heads.erase p) s.heads).insert n.cid
      view := s.view.apply P F n.delta.ops
      nodes := s.nodes.insert n.cid n } := by
  unfold accept at h
  dsimp only at h
  split_ifs at h with hl hfull
  exact ⟨not_not.mp hl, by omega, (Except.ok.inj h).symm⟩

theorem accept_error {s : DagStore} {n : Node} {e : Rejected} (h : accept P F s n = .error e) :
    n.delta.lamport ≠ s.expectedLamport n.delta ∨ s.cfg.max_nodes ≤ s.nodes.size := by
  unfold accept at h
  dsimp only at h
  split_ifs at h with hl hfull
  · exact .inl hl
  · exact .inr hfull

theorem mem_foldl_erase {c : String} : ∀ {ps : List String} {heads : StrSet},
    c ∈ ps.foldl (fun heads p => heads.erase p) heads ↔ c ∈ heads ∧ c ∉ ps
  | [], _ => by simp
  | p :: ps, heads => by
      rw [List.foldl_cons, mem_foldl_erase, StrSet.mem_erase, List.mem_cons, not_or, ne_comm]
      tauto

theorem lamportOf_insert {nodes : StrMap Node} {n : Node} {c p : String} (hp : c ≠ p) :
    lamportOf (nodes.insert c n) p = lamportOf nodes p := by
  simp [lamportOf, hp]

theorem sup_lamportOf_insert {nodes : StrMap Node} {n : Node} {c : String} {ps : List String}
    (hc : c ∉ ps) : ps.toFinset.sup (lamportOf (nodes.insert c n))
      = ps.toFinset.sup (lamportOf nodes) := by
  refine Finset.sup_congr rfl (fun p hp => lamportOf_insert ?_)
  rintro rfl
  exact hc (List.mem_toFinset.mp hp)

theorem opsOf_insert {nodes : StrMap Node} {n : Node} {c : String} (hc : c ∉ nodes) :
    opsOf (nodes.insert c n) = opsOf nodes ∪ {op | op ∈ n.delta.ops} := by
  ext op
  simp only [opsOf, StrMap.get_insert, Set.mem_union, Set.mem_ofPred_eq]
  constructor
  · rintro ⟨a, x, hx, hop⟩
    split_ifs at hx
    · obtain rfl := Option.some.inj hx
      exact .inr hop
    · exact .inl ⟨a, x, hx, hop⟩
  · rintro (⟨a, x, hx, hop⟩ | hop)
    · have hne : c ≠ a := by
        rintro rfl
        exact hc (StrMap.mem_of_get hx)
      exact ⟨a, x, by simpa [hne] using hx, hop⟩
    · exact ⟨c, n, by simp, hop⟩

/-- The operations of every delta that came in. -/
def opsWhere (Q : Node → Prop) : Set Op := {op | ∃ n, Q n ∧ op ∈ n.delta.ops}

theorem nodeInv_accept {s s' : DagStore} {n : Node} (hkeys : KeysApart P F (opsWhere Q))
    (hQ : Q n) (hnew : n.cid ∉ s.nodes) (hparents : ∀ p ∈ n.delta.parents, p ∈ s.nodes)
    (h : NodeInv P F Q s) (hacc : accept P F s n = .ok s') : NodeInv P F Q s' := by
  obtain ⟨hlam, hroom, rfl⟩ := accept_ok hacc
  have hself : n.cid ∉ n.delta.parents := fun hp => hnew (hparents _ hp)
  -- a node that was there, or the new one
  have hcases : ∀ (c : String) x, (s.nodes.insert n.cid n)[c]? = some x →
      (c = n.cid ∧ x = n) ∨ s.nodes[c]? = some x := by
    intro c x hx
    rw [StrMap.get_insert] at hx
    split_ifs at hx with hc
    · exact .inl ⟨hc.symm, (Option.some.inj hx).symm⟩
    · exact .inr hx
  refine ⟨fun c x hx => ?_, fun c x hx p hp => ?_, fun c x hx => ?_, fun c => ?_, ?_, ?_,
    fun c x hx => ?_⟩
  · rcases hcases c x hx with ⟨rfl, rfl⟩ | hx
    · rfl
    · exact h.node_cid c x hx
  · refine StrMap.mem_insert.mpr (.inr ?_)
    rcases hcases c x hx with ⟨rfl, rfl⟩ | hx
    · exact hparents p hp
    · exact h.parent_node c x hx p hp
  · rcases hcases c x hx with ⟨rfl, rfl⟩ | hx
    · dsimp only
      rw [sup_lamportOf_insert hself, hlam, expectedLamport_eq]
    · dsimp only
      rw [sup_lamportOf_insert (fun hp => hnew (h.parent_node c x hx _ hp)), h.lamport c x hx]
  · rw [StrSet.mem_insert, mem_foldl_erase, h.heads, StrMap.mem_insert]
    constructor
    · rintro (rfl | ⟨⟨hc, hno⟩, hnp⟩)
      · refine ⟨.inl rfl, fun c' x hx => ?_⟩
        rcases hcases c' x hx with ⟨-, rfl⟩ | hx
        · exact hself
        · exact fun hp => hnew (h.parent_node c' x hx _ hp)
      · refine ⟨.inr hc, fun c' x hx => ?_⟩
        rcases hcases c' x hx with ⟨-, rfl⟩ | hx
        · exact hnp
        · exact hno c' x hx
    · rintro ⟨hc, hno⟩
      refine hc.imp_right (fun hc => ⟨⟨hc, fun c' x hx => ?_⟩, hno n.cid n (by simp)⟩)
      have hne : n.cid ≠ c' := by
        rintro rfl
        exact hnew (StrMap.mem_of_get hx)
      exact hno c' x (by simpa [hne] using hx)
  · rw [opsOf_insert hnew]
    refine TopologyView.isUnion_apply _ (hkeys.mono ?_) h.view
    rintro op (⟨c, x, hx, hop⟩ | hop)
    · exact ⟨x, h.known c x (.inl hx), hop⟩
    · exact ⟨n, hQ, hop⟩
  · dsimp only
    rw [StrMap.size_insert_new hnew]
    omega
  · rcases hx with hx | hx
    · rcases hcases c x hx with ⟨-, rfl⟩ | hx
      · exact hQ
      · exact h.known c x (.inl hx)
    · exact h.known c x (.inr hx)

theorem nodeInv_forget {s : DagStore} {c : String} (h : NodeInv P F Q s) :
    NodeInv P F Q (s.forgetOrphan c) := by
  cases hc : s.orphans[c]? with
  | none => simpa [forgetOrphan, hc] using ⟨h.1, h.2, h.3, h.4, h.5, h.6, h.7⟩
  | some o =>
      rw [forgetOrphan_eq hc]
      refine ⟨h.1, h.2, h.3, h.4, h.5, h.6, fun a x hx => h.known a x (hx.imp_right ?_)⟩
      simp only [StrMap.get_erase]
      split_ifs <;> simp

/-- A node that has just been accepted goes on the worklist: its waiters
have lost a missing parent. -/
theorem orphanInv_accept {s s' : DagStore} {n : Node} {work todo : List String}
    (hnew : n.cid ∉ s.nodes) (horphan : n.cid ∉ s.orphans) (h : OrphanInv s work todo)
    (hacc : accept P F s n = .ok s') : OrphanInv s' (n.cid :: work) todo := by
  obtain ⟨-, -, rfl⟩ := accept_ok hacc
  refine ⟨h.orphan_cid, fun c hc => ?_, fun c o ho => ?_, fun p w => ?_, h.no_empty,
    h.order_nodup, h.order_mem, h.orphans_le, ?_, ?_⟩
  · rw [StrMap.mem_insert, not_or]
    exact ⟨fun heq => horphan (heq ▸ hc), h.disjoint c hc⟩
  · refine (h.misses c o ho).imp_right ?_
    rintro ⟨p, hp, hpn⟩
    refine ⟨p, hp, ?_⟩
    rw [StrMap.mem_insert, List.mem_cons]
    rcases hpn with hpn | hpw
    · by_cases hpc : n.cid = p
      · exact .inr (.inl hpc.symm)
      · exact .inl (by tauto)
    · exact .inr (.inr hpw)
  · rw [h.waiting]
    refine exists_congr (fun o => and_congr_right (fun _ => and_congr_right (fun _ => ?_)))
    rw [StrMap.mem_insert, List.mem_cons]
    constructor
    · rintro (hpn | hpw)
      · by_cases hpc : n.cid = p
        · exact .inr (.inl hpc.symm)
        · exact .inl (by tauto)
      · exact .inr (.inr hpw)
    · rintro (hpn | rfl | hpw)
      · exact .inl (fun hp => hpn (.inr hp))
      · exact .inl hnew
      · exact .inr hpw
  · exact List.nodup_cons.mpr ⟨fun hc => hnew (h.work_nodes _ hc), h.work_nodup⟩
  · intro c hc
    rw [StrMap.mem_insert]
    exact (List.mem_cons.mp hc).imp (fun heq => heq.symm) (h.work_nodes c)

/-! ## Promotion -/

/-- What one waiter comes to: it is left alone, and then is no orphan or
still misses a parent; it is dropped; or it is promoted. -/
theorem promoteOne_cases (st : Promotion) (w : String) :
    (promoteOne P F st w = st ∧ ∀ o, st.store.orphans[w]? = some o →
      ∃ p ∈ o.delta.parents, p ∉ st.store.nodes) ∨
    ∃ o, st.store.orphans[w]? = some o ∧ (∀ p ∈ o.delta.parents, p ∈ st.store.nodes) ∧
      ((∃ e, accept P F (st.store.forgetOrphan w) o = .error e ∧ promoteOne P F st w =
          { st with store := st.store.forgetOrphan w, dropped := st.dropped ++ [(w, e.text)] }) ∨
        ∃ s', accept P F (st.store.forgetOrphan w) o = .ok s' ∧ promoteOne P F st w =
          { st with store := s', work := w :: st.work, promoted := st.promoted ++ [w] }) := by
  unfold promoteOne
  cases ho : st.store.orphans[w]? with
  | none => exact .inl ⟨rfl, by simp⟩
  | some o =>
      dsimp only
      split_ifs with hready
      · refine .inr ⟨o, rfl, by simpa using hready, ?_⟩
        cases hacc : accept P F (st.store.forgetOrphan w) o with
        | error e => exact .inl ⟨e, rfl, rfl⟩
        | ok s' => exact .inr ⟨s', rfl, rfl⟩
      · refine .inl ⟨rfl, fun x hx => ?_⟩
        obtain rfl := Option.some.inj hx
        simpa using hready

theorem loopInv_promoteOne (hkeys : KeysApart P F (opsWhere Q)) {st : Promotion} {w : String}
    {todo : List String} (h : LoopInv P F Q st.store st.work (w :: todo)) :
    LoopInv P F Q (promoteOne P F st w).store (promoteOne P F st w).work todo := by
  -- an orphan other than `w` that is being looked at is in `todo`
  have htodo : ∀ {s : DagStore} {work : List String}, OrphanInv s work (w :: todo) →
      (∀ o, s.orphans[w]? = some o → ∃ p ∈ o.delta.parents, p ∉ s.nodes) →
      OrphanInv s work todo := by
    intro s work hs hw
    refine { hs with misses := fun c o ho => ?_ }
    rcases hs.misses c o ho with hc | hmiss
    · rcases List.mem_cons.mp hc with rfl | hc
      · obtain ⟨p, hp, hpn⟩ := hw o ho
        exact .inr ⟨p, hp, .inl hpn⟩
      · exact .inl hc
    · exact .inr hmiss
  rcases promoteOne_cases (P := P) (F := F) st w with ⟨heq, hw⟩ | ⟨o, ho, hready, hres⟩
  · rw [heq]
    exact ⟨h.nodes, htodo h.orphans hw⟩
  · have hforget : OrphanInv (st.store.forgetOrphan w) st.work todo :=
      htodo (orphanInv_forget h.orphans ho) (by simp [forgetOrphan_eq ho])
    have hcid : o.cid = w := h.orphans.orphan_cid w o ho
    have hQ : Q o := h.nodes.known w o (.inr ho)
    rcases hres with ⟨e, -, heq⟩ | ⟨s', hacc, heq⟩
    · rw [heq]
      exact ⟨nodeInv_forget h.nodes, hforget⟩
    · rw [heq]
      have hnew : o.cid ∉ (st.store.forgetOrphan w).nodes := by
        rw [forgetOrphan_eq ho, hcid]
        exact h.orphans.disjoint w (StrMap.mem_of_get ho)
      have hready' : ∀ p ∈ o.delta.parents, p ∈ (st.store.forgetOrphan w).nodes := by
        rw [forgetOrphan_eq ho]
        exact hready
      have hgone : o.cid ∉ (st.store.forgetOrphan w).orphans := by
        rw [forgetOrphan_eq ho, hcid]
        simp
      refine ⟨nodeInv_accept hkeys hQ hnew hready' (nodeInv_forget h.nodes) hacc, ?_⟩
      have := orphanInv_accept hnew hgone hforget hacc
      rwa [hcid] at this

theorem loopInv_foldl_promoteOne (hkeys : KeysApart P F (opsWhere Q)) :
    ∀ {todo : List String} {st : Promotion}, LoopInv P F Q st.store st.work todo →
    LoopInv P F Q (todo.foldl (promoteOne P F) st).store (todo.foldl (promoteOne P F) st).work []
  | [], _, h => h
  | w :: todo, st, h => by
      rw [List.foldl_cons]
      exact loopInv_foldl_promoteOne hkeys (loopInv_promoteOne hkeys h)

theorem promoteRound_none {st : Promotion} {arrived : String} {work : List String}
    (h : st.store.waiting_on[arrived]? = none) :
    promoteRound P F st arrived work = { st with work := work } := by
  simp [promoteRound, h]

theorem promoteRound_some {st : Promotion} {arrived : String} {work : List String} {ws : StrSet}
    (h : st.store.waiting_on[arrived]? = some ws) :
    promoteRound P F st arrived work = ws.toList.foldl (promoteOne P F) { st with
      work := work
      store := { st.store with waiting_on := st.store.waiting_on.erase arrived } } := by
  simp [promoteRound, h]

/-- The store as the waiters of `arrived` are taken off the index. -/
theorem loopInv_promoteRound_start {st : Promotion} {arrived : String} {work : List String}
    {waiters : StrSet} (h : LoopInv P F Q st.store (arrived :: work) [])
    (hwait : st.store.waiting_on[arrived]? = some waiters) :
    LoopInv P F Q { st.store with waiting_on := st.store.waiting_on.erase arrived } work
      waiters.toList := by
  obtain ⟨hn, ho⟩ := h
  obtain ⟨hfresh, hwork⟩ := List.nodup_cons.mp ho.work_nodup
  refine ⟨⟨hn.1, hn.2, hn.3, hn.4, hn.5, hn.6, hn.7⟩, { ho with
    misses := fun c o hc => ?_, waiting := fun p w => ?_, no_empty := fun p ws hws => ?_,
    work_nodup := hwork, work_nodes := fun c hc => ho.work_nodes c (List.mem_cons_of_mem _ hc) }⟩
  · rcases ho.misses c o hc with hnil | ⟨p, hp, hpn⟩
    · simp at hnil
    by_cases hpa : p = arrived
    · obtain ⟨ws, hws, hmem⟩ := (ho.waiting p c).mpr ⟨o, hc, hp, hpn⟩
      rw [hpa, hwait, Option.some.injEq] at hws
      exact .inl (Std.ExtTreeSet.mem_toList.mpr (hws ▸ hmem))
    · exact .inr ⟨p, hp, hpn.imp_right (List.mem_of_ne_of_mem hpa)⟩
  · have herase : Waits (st.store.waiting_on.erase arrived) p w
        ↔ p ≠ arrived ∧ Waits st.store.waiting_on p w := by
      unfold Waits
      rw [StrMap.get_erase]
      by_cases hpa : arrived = p
      · simp [hpa]
      · simp [hpa, Ne.symm hpa]
    dsimp only
    rw [herase, ho.waiting]
    constructor
    · rintro ⟨hpa, o, hw, hp, hpn⟩
      exact ⟨o, hw, hp, hpn.imp_right (List.mem_of_ne_of_mem hpa)⟩
    · rintro ⟨o, hw, hp, hpn⟩
      have hpa : p ≠ arrived := by
        rintro rfl
        exact hpn.elim (fun h => h (ho.work_nodes p (by simp))) hfresh
      exact ⟨hpa, o, hw, hp, hpn.imp_right (List.mem_cons_of_mem _)⟩
  · rw [StrMap.get_erase] at hws
    split_ifs at hws
    exact ho.no_empty p ws hws

theorem loopInv_promoteRound (hkeys : KeysApart P F (opsWhere Q)) {st : Promotion}
    {arrived : String} {work : List String} (h : LoopInv P F Q st.store (arrived :: work) []) :
    LoopInv P F Q (promoteRound P F st arrived work).store
      (promoteRound P F st arrived work).work [] := by
  cases hwait : st.store.waiting_on[arrived]? with
  | some waiters =>
      rw [promoteRound_some hwait]
      exact loopInv_foldl_promoteOne hkeys (loopInv_promoteRound_start h hwait)
  | none =>
      obtain ⟨hn, ho⟩ := h
      rw [promoteRound_none hwait]
      -- nobody waits for `arrived`, so nobody names it as a parent
      have hno : ∀ (w : String) o p, st.store.orphans[w]? = some o → p ∈ o.delta.parents →
          p ≠ arrived := by
        rintro w o p hw hp rfl
        obtain ⟨ws, hws, -⟩ := (ho.waiting p w).mpr ⟨o, hw, hp, .inr (by simp)⟩
        simp [hwait] at hws
      refine ⟨hn, { ho with
        misses := fun c o hc => ?_, waiting := fun p w => ?_,
        work_nodup := (List.nodup_cons.mp ho.work_nodup).2,
        work_nodes := fun c hc => ho.work_nodes c (List.mem_cons_of_mem _ hc) }⟩
      · refine (ho.misses c o hc).imp_right ?_
        rintro ⟨p, hp, hpn⟩
        exact ⟨p, hp, hpn.imp_right (List.mem_of_ne_of_mem (hno c o p hc hp))⟩
      · rw [ho.waiting]
        refine exists_congr (fun o => and_congr_right (fun hw => and_congr_right (fun hp => ?_)))
        simp [hno w o p hw hp]

/-! ### The worklist runs out -/

/-- What is left to do: the cids on the list and the orphans that may still
be put on it. -/
def Promotion.left (st : Promotion) : Nat := st.work.length + st.store.orphans.size

theorem left_promoteOne (st : Promotion) (w : String) :
    (promoteOne P F st w).left ≤ st.left := by
  rcases promoteOne_cases (P := P) (F := F) st w with ⟨heq, -⟩ | ⟨o, ho, -, hres⟩
  · rw [heq]
  have herase : (st.store.forgetOrphan w).orphans.size + 1 = st.store.orphans.size := by
    rw [forgetOrphan_eq ho]
    exact StrMap.size_erase_mem (StrMap.mem_of_get ho)
  rcases hres with ⟨e, -, heq⟩ | ⟨s', hacc, heq⟩
  · rw [heq]
    simp only [Promotion.left]
    omega
  · obtain ⟨-, -, rfl⟩ := accept_ok hacc
    rw [heq]
    simp only [Promotion.left, List.length_cons]
    omega

theorem left_foldl_promoteOne : ∀ (todo : List String) (st : Promotion),
    (todo.foldl (promoteOne P F) st).left ≤ st.left
  | [], _ => le_rfl
  | w :: todo, st =>
      (left_foldl_promoteOne todo (promoteOne P F st w)).trans (left_promoteOne st w)

theorem left_promoteRound (st : Promotion) (arrived : String) (work : List String) :
    (promoteRound P F st arrived work).left ≤ work.length + st.store.orphans.size := by
  cases hwait : st.store.waiting_on[arrived]? with
  | none => rw [promoteRound_none hwait, Promotion.left]
  | some ws =>
      rw [promoteRound_some hwait]
      exact left_foldl_promoteOne _ _

/-- With fuel for what is left to do, the loop ends with nothing on the
list, and with the invariant that holds between calls. -/
theorem promoteLoop_done (hkeys : KeysApart P F (opsWhere Q)) : ∀ {fuel : Nat} {st : Promotion},
    st.left ≤ fuel → LoopInv P F Q st.store st.work [] →
    (promoteLoop P F fuel st).work = [] ∧ LoopInv P F Q (promoteLoop P F fuel st).store [] []
  | 0, st, hfuel, h => by
      have hwork : st.work = [] := List.eq_nil_of_length_eq_zero (by
        rw [Promotion.left] at hfuel
        omega)
      exact ⟨hwork, hwork ▸ h⟩
  | fuel + 1, st, hfuel, h => by
      cases hwork : st.work with
      | nil =>
          have hend : promoteLoop P F (fuel + 1) st = st := by simp [promoteLoop, hwork]
          rw [hend]
          exact ⟨hwork, hwork ▸ h⟩
      | cons arrived work =>
          rw [promoteLoop, hwork]
          refine promoteLoop_done hkeys ?_ (loopInv_promoteRound hkeys (hwork ▸ h))
          refine (left_promoteRound st arrived work).trans ?_
          rw [Promotion.left, hwork, List.length_cons] at hfuel
          omega

theorem loopInv_promote (hkeys : KeysApart P F (opsWhere Q)) {s : DagStore} {cid : String}
    (h : LoopInv P F Q s [cid] []) : LoopInv P F Q (promote P F s cid).store [] [] := by
  refine (promoteLoop_done hkeys ?_ h).2
  simp only [Promotion.left, List.length_singleton]
  omega

/-! ## Insertion -/

/-- What becomes of a delta the store does not know: it is held, refused, or
accepted and its waiters promoted. -/
theorem insertNode_cases (s : DagStore) (n : Node) :
    (s.missing n.delta ≠ [] ∧ (insertNode P F s n).2 = s.hold n) ∨
    (s.missing n.delta = [] ∧ (∃ e, accept P F s n = .error e) ∧ (insertNode P F s n).2 = s) ∨
    (s.missing n.delta = [] ∧ ∃ s', accept P F s n = .ok s' ∧
      (insertNode P F s n).2 = (promote P F s' n.cid).store) := by
  unfold insertNode
  dsimp only
  split_ifs with hmiss
  · exact .inl ⟨hmiss, rfl⟩
  · have hnil := not_not.mp hmiss
    cases hacc : accept P F s n with
    | error e => exact .inr (.inl ⟨hnil, ⟨e, rfl⟩, rfl⟩)
    | ok s' => exact .inr (.inr ⟨hnil, s', rfl, rfl⟩)

theorem missing_eq_nil {s : DagStore} {d : GraphDelta} :
    s.missing d = [] ↔ ∀ p ∈ d.parents, p ∈ s.nodes := by
  simp [missing, List.filter_eq_nil_iff]

theorem hold_frame {s : DagStore} {work todo : List String} (h : OrphanInv s work todo)
    (n : Node) : (s.hold n).nodes = s.nodes ∧ (s.hold n).heads = s.heads ∧
      (s.hold n).view = s.view ∧ (s.hold n).cfg = s.cfg ∧ (s.hold n).trust = s.trust ∧
      ∀ (c : String) o, (s.hold n).orphans[c]? = some o → o = n ∨ s.orphans[c]? = some o := by
  obtain ⟨-, hnodes, hheads, hview, hcfg, htrust, hsub, -⟩ := evict_frame h
  refine ⟨hnodes, hheads, hview, hcfg, htrust, fun c o hc => ?_⟩
  simp only [hold, StrMap.get_insert] at hc
  split_ifs at hc
  · exact .inl (Option.some.inj hc).symm
  · exact .inr (hsub c o hc)

theorem loopInv_insertNode (hkeys : KeysApart P F (opsWhere Q)) {s : DagStore} {n : Node}
    (hQ : Q n) (hnew : s.knows n.cid = false)
    (h : LoopInv P F Q s [] []) : LoopInv P F Q (insertNode P F s n).2 [] [] := by
  obtain ⟨hn, ho⟩ := h
  have hknow : n.cid ∉ s.nodes ∧ n.cid ∉ s.orphans := by simpa [knows] using hnew
  rcases insertNode_cases (P := P) (F := F) s n with ⟨hmiss, heq⟩ | ⟨-, -, heq⟩ | ⟨hnil, s', hacc, heq⟩
  · rw [heq]
    obtain ⟨hnodes, hheads, hview, hcfg, -, hsub⟩ := hold_frame ho n
    refine ⟨⟨?_, ?_, ?_, ?_, ?_, ?_, fun c x hx => ?_⟩,
      orphanInv_hold ho hknow.1 hknow.2 hmiss⟩
    · exact hnodes ▸ hn.node_cid
    · exact hnodes ▸ hn.parent_node
    · exact hnodes ▸ hn.lamport
    · rw [hnodes, hheads]
      exact hn.heads
    · rw [hnodes, hview]
      exact hn.view
    · rw [hnodes, hcfg]
      exact hn.nodes_le
    · rw [hnodes] at hx
      rcases hx with hx | hx
      · exact hn.known c x (.inl hx)
      · rcases hsub c x hx with rfl | hx
        · exact hQ
        · exact hn.known c x (.inr hx)
  · rw [heq]
    exact ⟨hn, ho⟩
  · rw [heq]
    exact loopInv_promote hkeys ⟨nodeInv_accept hkeys hQ hknow.1 (missing_eq_nil.mp hnil) hn hacc,
      orphanInv_accept hknow.1 hknow.2 ho hacc⟩

/-- The delta an envelope carries, for a store with this trust and this
envelope limit. -/
def readNode (P : Prims) (F : Type) [FloatCodec F] (trust : Trust) (max_bytes : Nat)
    (wire : String) : Option Node :=
  if max_bytes < wire.utf8ByteSize then none
  else
    match parse (F := F) wire with
    | .error _ => none
    | .ok v =>
        match authenticate P trust v with
        | .error _ => none
        | .ok ver =>
            match parsePayload P ver.payload with
            | .error _ => none
            | .ok d => some ⟨sha256Hex P ver.payload_bytes, d, toStr v⟩

/-- The store after one envelope: what carries no acceptable delta, or one
that is known, changes nothing. -/
theorem insertWire_store (s : DagStore) (wire : String) :
    (insertWire P F s wire).2 =
      match readNode P F s.trust s.cfg.max_envelope_bytes wire with
      | none => s
      | some n => if s.knows n.cid then s else (insertNode P F s n).2 := by
  unfold insertWire readNode
  split_ifs with hsize
  · rfl
  cases parse (F := F) wire with
  | error e => rfl
  | ok v =>
      unfold insertValue
      dsimp only
      cases authenticate P s.trust v with
      | error e => rfl
      | ok ver =>
          dsimp only
          cases hparse : parsePayload P ver.payload with
          | error e =>
              dsimp only
              split_ifs
              · rfl
              · split <;> rfl
          | ok d =>
              dsimp only [knows]
              by_cases hnode : sha256Hex P ver.payload_bytes ∈ s.nodes
              · simp [hnode]
              · cases horphan : s.orphans[sha256Hex P ver.payload_bytes]? with
                | none => simp [hnode, StrMap.not_mem_iff_get.mpr horphan]
                | some o => simp [hnode, StrMap.mem_of_get horphan]

theorem insertNode_error {s : DagStore} {n : Node} {e : Rejected}
    (h : (insertNode P F s n).1 = .error e) : (insertNode P F s n).2 = s := by
  unfold insertNode at h ⊢
  dsimp only at h ⊢
  split_ifs at h ⊢
  cases hacc : accept P F s n with
  | error e => rfl
  | ok s' => simp [hacc] at h

/-- A rejected envelope leaves the store as it was. -/
theorem insertWire_error {s : DagStore} {wire : String} {e : Rejected}
    (h : (insertWire P F s wire).1 = .error e) : (insertWire P F s wire).2 = s := by
  unfold insertWire at h ⊢
  split_ifs at h ⊢
  · rfl
  cases hparse : parse (F := F) wire with
  | error e => rfl
  | ok v =>
      simp only [hparse, insertValue] at h ⊢
      cases hauth : authenticate P s.trust v with
      | error e => rfl
      | ok ver =>
          simp only [hauth] at h ⊢
          split_ifs at h ⊢
          cases horphan : s.orphans[sha256Hex P ver.payload_bytes]? with
          | some o => rfl
          | none =>
              simp only [horphan] at h ⊢
              cases hd : parsePayload P ver.payload with
              | error e => rfl
              | ok d =>
                  simp only [hd] at h ⊢
                  exact insertNode_error h

end

/-! ## Every run -/

/-- The texts that are hashed on account of one envelope: its payload and
the states its delta declares. -/
def Hashed (P : Prims) (F : Type) [FloatCodec F] (wire : String) (b : ByteArray) : Prop :=
  ∃ m : List (String × Value F), parse wire = .ok (.obj m) ∧ (b = toBytes (payloadOf m) ∨
    ∃ d, parsePayload P (payloadOf m) = .ok d ∧ ∃ origin route query_keys,
      Op.addState origin route query_keys ∈ d.ops ∧
      b = toBytes (stateKeyValue F origin route query_keys))

/-- The digest has no collision among what these envelopes make it hash. -/
def CollisionFree (P : Prims) (F : Type) [FloatCodec F] (wires : Set String) : Prop :=
  Set.InjOn P.sha256 {b | ∃ w ∈ wires, Hashed P F w b}

section

variable {P : Prims} {F : Type} [FloatCodec F]

theorem authenticate_ok {trust : Trust} {v : Value F} {ver : Verified F}
    (h : authenticate P trust v = .ok ver) : ∃ m, v = .obj m ∧ verify P m = .ok ver ∧
      (ver.payload.asObj.bind (fun p => objGet p "author")).bind Value.asStr = some ver.signer ∧
      trust.contains ver.signer = true := by
  unfold authenticate at h
  split at h
  · cases h
  next m hm =>
  split at h
  · cases h
  next ver' hver =>
  split_ifs at h with hauthor htrust
  obtain rfl := Except.ok.inj h
  refine ⟨m, ?_, hver, not_not.mp hauthor, by simpa using htrust⟩
  cases v <;> simp_all [Value.asObj]

/-- What reading an envelope comes to. -/
theorem readNode_some {trust : Trust} {max_bytes : Nat} {wire : String} {n : Node}
    (h : readNode P F trust max_bytes wire = some n) : wire.utf8ByteSize ≤ max_bytes ∧
      ∃ m ver, parse (F := F) wire = .ok (.obj m) ∧ authenticate P trust (.obj m) = .ok ver ∧
        verify P m = .ok ver ∧ parsePayload P (payloadOf m) = .ok n.delta ∧
        n.cid = sha256Hex P (toBytes (payloadOf m)) ∧ n.wire = toStr (.obj m) := by
  unfold readNode at h
  split_ifs at h with hsize
  split at h
  · cases h
  next v hv =>
  split at h
  · cases h
  next ver hauth =>
  split at h
  · cases h
  next d hd =>
  obtain rfl := Option.some.inj h
  obtain ⟨m, rfl, hver, -, -⟩ := authenticate_ok hauth
  obtain ⟨-, -, hpayload, hbytes⟩ := verify_ok hver
  exact ⟨by omega, m, ver, hv, hauth, hver, hpayload ▸ hd, by rw [hbytes], rfl⟩

/-- The deltas that some of `wires` carries. -/
def CarriedBy (P : Prims) (F : Type) [FloatCodec F] (trust : Trust) (max_bytes : Nat)
    (wires : Set String) (n : Node) : Prop :=
  ∃ w ∈ wires, readNode P F trust max_bytes w = some n

theorem keysApart_carried {trust : Trust} {max_bytes : Nat} {wires : Set String}
    (h : CollisionFree P F wires) :
    KeysApart P F (opsWhere (CarriedBy P F trust max_bytes wires)) := by
  refine keysApart_of_injOn (h.mono ?_)
  rintro b ⟨o, r, q, ⟨n, ⟨w, hw, hread⟩, hop⟩, rfl⟩
  obtain ⟨-, m, ver, hparse, -, -, hd, -, -⟩ := readNode_some hread
  exact ⟨w, hw, m, hparse, .inr ⟨n.delta, hd, o, r, q, hop, rfl⟩⟩

theorem new_ok {cfg : Config} {s : DagStore} (h : new cfg = .ok s) :
    ∃ trust, Trust.new cfg.trusted_authors = .ok trust ∧ s = { trust := trust, cfg := cfg } := by
  unfold new at h
  split at h
  · next trust ht => exact ⟨trust, ht, (Except.ok.inj h).symm⟩
  · cases h

theorem loopInv_new {Q : Node → Prop} (trust : Trust) (cfg : Config) :
    LoopInv P F Q { trust := trust, cfg := cfg } [] [] := by
  refine ⟨⟨by simp, by simp, by simp, by simp, ?_, by simp, by simp⟩,
    ⟨by simp, by simp, by simp, by simp [Waits], ?_, by simp, by simp, by simp, by simp, by simp⟩⟩
  · have hops : opsOf (∅ : StrMap Node) = ∅ := by simp [opsOf]
    rw [hops]
    exact TopologyView.isUnion_empty
  · intro p ws h
    simp at h

/-- Two stores with the same trust and the same limits. -/
def SameSetup (s s' : DagStore) : Prop := s'.trust = s.trust ∧ s'.cfg = s.cfg

theorem SameSetup.trans {s s' s'' : DagStore} (h : SameSetup s s') (h' : SameSetup s' s'') :
    SameSetup s s'' := ⟨h'.1.trans h.1, h'.2.trans h.2⟩

theorem sameSetup_promoteOne (st : Promotion) (w : String) :
    SameSetup st.store (promoteOne P F st w).store := by
  rcases promoteOne_cases (P := P) (F := F) st w with
    ⟨heq, -⟩ | ⟨o, ho, -, ⟨e, -, heq⟩ | ⟨s', hacc, heq⟩⟩
  · rw [heq]
    exact ⟨rfl, rfl⟩
  · rw [heq, forgetOrphan_eq ho]
    exact ⟨rfl, rfl⟩
  · obtain ⟨-, -, rfl⟩ := accept_ok hacc
    rw [heq, forgetOrphan_eq ho]
    exact ⟨rfl, rfl⟩

theorem sameSetup_foldl_promoteOne : ∀ (todo : List String) (st : Promotion),
    SameSetup st.store (todo.foldl (promoteOne P F) st).store
  | [], _ => ⟨rfl, rfl⟩
  | w :: todo, st => (sameSetup_promoteOne st w).trans
      (sameSetup_foldl_promoteOne todo (promoteOne P F st w))

theorem sameSetup_promoteLoop : ∀ (fuel : Nat) (st : Promotion),
    SameSetup st.store (promoteLoop P F fuel st).store
  | 0, _ => ⟨rfl, rfl⟩
  | fuel + 1, st => by
      cases hwork : st.work with
      | nil =>
          simp only [promoteLoop, hwork]
          exact ⟨rfl, rfl⟩
      | cons arrived work =>
          rw [promoteLoop, hwork]
          refine SameSetup.trans ?_ (sameSetup_promoteLoop fuel _)
          cases hwait : st.store.waiting_on[arrived]? with
          | none =>
              rw [promoteRound_none hwait]
              exact ⟨rfl, rfl⟩
          | some ws =>
              rw [promoteRound_some hwait]
              exact SameSetup.trans ⟨rfl, rfl⟩ (sameSetup_foldl_promoteOne _ _)

theorem sameSetup_insertWire {s : DagStore} (h : OrphanInv s [] []) (wire : String) :
    SameSetup s (insertWire P F s wire).2 := by
  rw [insertWire_store]
  split
  · exact ⟨rfl, rfl⟩
  next n _ =>
  split_ifs
  · exact ⟨rfl, rfl⟩
  rcases insertNode_cases (P := P) (F := F) s n with ⟨-, heq⟩ | ⟨-, -, heq⟩ | ⟨-, s', hacc, heq⟩
  · obtain ⟨-, -, -, hcfg, htrust, -⟩ := hold_frame h n
    rw [heq]
    exact ⟨htrust, hcfg⟩
  · rw [heq]
    exact ⟨rfl, rfl⟩
  · obtain ⟨-, -, rfl⟩ := accept_ok hacc
    rw [heq]
    exact SameSetup.trans ⟨rfl, rfl⟩ (sameSetup_promoteLoop _ _)

/-- One envelope keeps the invariant. -/
theorem loopInv_insertWire {Q : Node → Prop} (hkeys : KeysApart P F (opsWhere Q))
    {s : DagStore} {wire : String} (hQ : ∀ n, readNode P F s.trust s.cfg.max_envelope_bytes wire = some n → Q n)
    (h : LoopInv P F Q s [] []) : LoopInv P F Q (insertWire P F s wire).2 [] [] := by
  rw [insertWire_store]
  split
  · exact h
  next n hread =>
  split_ifs with hknow
  · exact h
  · exact loopInv_insertNode hkeys (hQ n hread) (by simpa using hknow) h

/-- Any sequence of envelopes keeps the invariant. -/
theorem loopInv_insertWires {Q : Node → Prop} (hkeys : KeysApart P F (opsWhere Q)) :
    ∀ {wires : List String} {s : DagStore},
    (∀ w ∈ wires, ∀ n, readNode P F s.trust s.cfg.max_envelope_bytes w = some n → Q n) →
    LoopInv P F Q s [] [] → SameSetup s (insertWires P F s wires) ∧
      LoopInv P F Q (insertWires P F s wires) [] []
  | [], _, _, h => ⟨⟨rfl, rfl⟩, h⟩
  | w :: wires, s, hQ, h => by
      have hsetup := sameSetup_insertWire (P := P) (F := F) h.orphans w
      have hstep := loopInv_insertWire hkeys (hQ w (by simp)) h
      have hrest : ∀ w' ∈ wires, ∀ n, readNode P F (insertWire P F s w).2.trust
          (insertWire P F s w).2.cfg.max_envelope_bytes w' = some n → Q n := by
        rw [hsetup.1, hsetup.2]
        exact fun w' hw' => hQ w' (List.mem_cons_of_mem _ hw')
      obtain ⟨hrest, hinv⟩ := loopInv_insertWires hkeys hrest hstep
      exact ⟨hsetup.trans hrest, hinv⟩

/-! ## Consistency -/

/-- What holds of the indexes of a store between calls. -/
structure Consistent (P : Prims) (F : Type) [FloatCodec F] (s : DagStore) : Prop where
  node_cid : ∀ (c : String) n, s.nodes[c]? = some n → n.cid = c
  /-- every parent of a node is a node -/
  parent_node : ∀ (c : String) n, s.nodes[c]? = some n → ∀ p ∈ n.delta.parents, p ∈ s.nodes
  /-- a node's lamport is one more than the greatest of its parents' -/
  lamport : ∀ (c : String) n, s.nodes[c]? = some n →
    n.delta.lamport = 1 + n.delta.parents.toFinset.sup (lamportOf s.nodes)
  /-- the heads are the nodes that are no node's parent -/
  heads : ∀ c, c ∈ s.heads ↔ c ∈ s.nodes ∧
    ∀ (c' : String) n, s.nodes[c']? = some n → c ∉ n.delta.parents
  /-- the view is the union of the operations of the nodes -/
  view : s.view.IsUnion P F (opsOf s.nodes)
  disjoint : ∀ c, c ∈ s.orphans → c ∉ s.nodes
  orphan_cid : ∀ (c : String) o, s.orphans[c]? = some o → o.cid = c
  /-- an orphan misses a parent -/
  misses : ∀ (c : String) o, s.orphans[c]? = some o → ∃ p ∈ o.delta.parents, p ∉ s.nodes
  /-- what waits for `p` are the orphans that name it, while it is no node -/
  waiting : ∀ p w : String, Waits s.waiting_on p w ↔
    p ∉ s.nodes ∧ ∃ o, s.orphans[w]? = some o ∧ p ∈ o.delta.parents
  no_empty : NoEmpty s.waiting_on
  /-- the queue lists each orphan once -/
  order_nodup : s.orphan_order.Nodup
  order_mem : ∀ c, c ∈ s.orphan_order ↔ c ∈ s.orphans
  orphans_le : 1 ≤ s.cfg.max_orphans → s.orphans.size ≤ s.cfg.max_orphans
  nodes_le : s.nodes.size ≤ s.cfg.max_nodes

/-- Between calls the invariant is consistency. -/
theorem LoopInv.consistent {Q : Node → Prop} {s : DagStore} (h : LoopInv P F Q s [] []) :
    Consistent P F s where
  node_cid := h.nodes.node_cid
  parent_node := h.nodes.parent_node
  lamport := h.nodes.lamport
  heads := h.nodes.heads
  view := h.nodes.view
  disjoint := h.orphans.disjoint
  orphan_cid := h.orphans.orphan_cid
  misses := fun c o ho => by simpa using h.orphans.misses c o ho
  waiting := fun p w => by
    rw [h.orphans.waiting]
    simp only [List.not_mem_nil, or_false]
    tauto
  no_empty := h.orphans.no_empty
  order_nodup := h.orphans.order_nodup
  order_mem := h.orphans.order_mem
  orphans_le := fun hmax => max_eq_right hmax ▸ h.orphans.orphans_le
  nodes_le := h.nodes.nodes_le

/-- What `Consistent` says of a store reached from `new`, its limits being
those it was made with. -/
theorem consistent_insertWires {cfg : Config} {s : DagStore} {wires : List String}
    (hnew : new cfg = .ok s) (hmax : 1 ≤ cfg.max_orphans)
    (hfree : CollisionFree P F {w | w ∈ wires}) :
    Consistent P F (insertWires P F s wires) ∧
      (insertWires P F s wires).orphans.size ≤ cfg.max_orphans ∧
      (insertWires P F s wires).nodes.size ≤ cfg.max_nodes := by
  obtain ⟨trust, -, rfl⟩ := new_ok hnew
  obtain ⟨hsetup, hinv⟩ := loopInv_insertWires (s := { trust := trust, cfg := cfg })
    (keysApart_carried hfree) (fun w hw n hn => ⟨w, hw, hn⟩) (loopInv_new trust cfg)
  have hcfg : (insertWires P F { trust := trust, cfg := cfg } wires).cfg = cfg := hsetup.2
  refine ⟨hinv.consistent, ?_, ?_⟩
  · have := hinv.consistent.orphans_le
    rw [hcfg] at this
    exact this hmax
  · have := hinv.consistent.nodes_le
    rwa [hcfg] at this

end

end DagStore

/-! ## The golden vectors

The two valid deltas of the shared test vectors, with what the digest, base64
and the signature check say on them. -/

namespace Golden

def AGENT : String := "did:key:z6MkeiDV9o1EhKG5XN7qWWmQeBZkzUDSvS4q4UDvEWbEzwi5"
def INSTALL_KEY : String := "efcb0f570e2d2f755f7811998d1f9710f1427e206cef479bcba1566d74fc005c"
def DELETE_KEY : String := "27df1fa90ceaac6210ed14651aed143c358c93a36fdd4aa3d205ec78cd31212f"
def ROOT_CID : String := "f11f9d177809ff8f8c0be0861c5e38dbcc8d4641c6f0cd090cde64a7a744a529"
def CHILD_CID : String := "aecdb8bfcdaa1567b2fdae645308798b1407010c634bf67582adf734baf8c84d"
def ROOT_SIG : String :=
  "PLy1uN6DPrZtk+RpuxxMzvKGTsZYmGK0a1zDgCmVhqVxLY9SnaIQxHb8a3uKFxA9TCrp0Z999+qat4OnVk36CQ=="
def CHILD_SIG : String :=
  "P59XrP5J4d1b+tqCnl1Rsv/VRL1QM6hHUF2sCgy2VQcVEtfSZ/Bgu1wf7QMdqrD9VQRP2jo/BrwQyEHa5V5zCQ=="

def root : GraphDelta where
  author := AGENT
  parents := []
  lamport := 1
  ops := [.addState "https://docs.example.com" "/guide/install" ["lang"],
    .addObservation INSTALL_KEY
      "d5bd629ee4a0226fd4dcb9d50cfae31a0f99851233daf8dbf8558228134edaf7" 26]

def child : GraphDelta where
  author := AGENT
  parents := [ROOT_CID]
  lamport := 2
  ops := [.addState "https://docs.example.com" "/account/delete" [],
    .addReference ⟨INSTALL_KEY, DELETE_KEY, .form, .post, ["confirm", "reason"]⟩]

/-- The members of a signed delta. -/
def signed (d : GraphDelta) (sig : String) : List (String × Value Empty) :=
  [("author", .str d.author), ("lamport", .int d.lamport), ("ops", .arr (d.ops.map opValue)),
    ("parents", strArr d.parents), ("sig", .str sig), ("signer", .str d.author),
    ("type", .str DELTA_TYPE)]

/-- The bytes behind a text of hexadecimal digits. -/
def unhex : List Char → List UInt8
  | a :: b :: rest => ((hexVal a).getD 0 * 16 + (hexVal b).getD 0).toUInt8 :: unhex rest
  | _ => []

def ROOT_SIG_BYTES : List UInt8 :=
  [60, 188, 181, 184, 222, 131, 62, 182, 109, 147, 228, 105, 187, 28, 76, 206, 242, 134, 78, 198,
    88, 152, 98, 180, 107, 92, 195, 128, 41, 149, 134, 165, 113, 45, 143, 82, 157, 162, 16, 196,
    118, 252, 107, 123, 138, 23, 16, 61, 76, 42, 233, 209, 159, 125, 247, 234, 154, 183, 131, 167,
    86, 77, 250, 9]

def CHILD_SIG_BYTES : List UInt8 :=
  [63, 159, 87, 172, 254, 73, 225, 221, 91, 250, 218, 130, 158, 93, 81, 178, 255, 213, 68, 189,
    80, 51, 168, 71, 80, 93, 172, 10, 12, 182, 85, 7, 21, 18, 215, 210, 103, 240, 96, 187, 92, 31,
    237, 3, 29, 170, 176, 253, 85, 4, 79, 218, 58, 63, 6, 188, 16, 200, 65, 218, 229, 94, 115, 9]

/-- The values hashed on account of the two envelopes, with their digests. -/
def table : List (Value Empty × String) :=
  [(payloadOf (signed root ROOT_SIG), ROOT_CID), (payloadOf (signed child CHILD_SIG), CHILD_CID),
    (stateKeyValue Empty "https://docs.example.com" "/guide/install" ["lang"], INSTALL_KEY),
    (stateKeyValue Empty "https://docs.example.com" "/account/delete" [], DELETE_KEY)]

/-- The digest of a text of the vectors; another text gets the zero digest. -/
def sha256 (data : ByteArray) : List UInt8 :=
  match table.find? (fun e => toBytes e.1 = data) with
  | some e => unhex e.2.toList
  | none => List.replicate 32 0

theorem sha256_length (data : ByteArray) : (sha256 data).length = 32 := by
  have hall : ∀ e ∈ table, (unhex e.2.toList).length = 32 := by decide +kernel
  unfold sha256
  split
  · next e he => exact hall e (List.mem_of_find?_eq_some he)
  · rfl

def prims : Prims where
  sha256 := sha256
  sha256_length := sha256_length
  b64decode s :=
    if s = ROOT_SIG then some ROOT_SIG_BYTES
    else if s = CHILD_SIG then some CHILD_SIG_BYTES else none
  keyOk _ := true
  verifyStrict pk msg sig :=
    pubkeyFromDid AGENT = .ok pk ∧
      ((msg = toBytes (payloadOf (signed root ROOT_SIG)) ∧ sig = ROOT_SIG_BYTES) ∨
        (msg = toBytes (payloadOf (signed child CHILD_SIG)) ∧ sig = CHILD_SIG_BYTES))
  debugStr s := "\"" ++ s ++ "\""

def rootWire : String := toStr (.obj (signed root ROOT_SIG))
def childWire : String := toStr (.obj (signed child CHILD_SIG))

def config : Config := { trusted_authors := [AGENT] }

def store : DagStore where
  trust := ⟨[AGENT], by simp, by decide +kernel⟩
  cfg := config

theorem new_config : DagStore.new config = .ok store := by
  have h : ∀ d ∈ [AGENT], (pubkeyFromDid d).isOk = true := by decide +kernel
  simp [DagStore.new, config, Trust.new, store, h]

theorem signed_wf (d : GraphDelta) (sig : String) :
    (Value.obj (signed d sig)).WF (fun _ => False) 64 := by
  have hsort : ["author", "lamport", "ops", "parents", "sig", "signer", "type"].Pairwise
      (· < ·) := by decide
  refine ⟨List.pairwise_map.mp hsort, wf_str _ _, wf_int _ _, opValues_wf _ _, wf_strArr _ _,
    wf_str _ _, wf_str _ _, wf_str _ _, trivial⟩

theorem find?_of_nodup {α β : Type} [DecidableEq β] {f : α → β} {e : α} : ∀ {l : List α},
    (l.map f).Nodup → e ∈ l → l.find? (fun x => f x = f e) = some e
  | x :: l, hnd, he => by
      obtain ⟨hx, hl⟩ := List.nodup_cons.mp hnd
      rcases List.mem_cons.mp he with rfl | he
      · simp
      · have hne : f x ≠ f e := fun heq => hx (heq ▸ List.mem_map_of_mem he)
        simpa [hne] using find?_of_nodup hl he

/-- In a table of different texts each text is found under its own bytes. -/
theorem find?_table {t : List (Value Empty × String)} {e : Value Empty × String}
    (hnd : (t.map (fun e => writeValue e.1)).Nodup) (he : e ∈ t) :
    t.find? (fun x => toBytes x.1 = toBytes e.1) = some e := by
  have hbytes := hnd.map (f := fun l => (String.ofList l).toUTF8)
    (fun a b h => String.ofList_injective (String.toByteArray_inj.mp h))
  rw [List.map_map] at hbytes
  exact find?_of_nodup (f := fun e : Value Empty × String => toBytes e.1) hbytes he

theorem sha256_table {e : Value Empty × String} (he : e ∈ table) :
    sha256 (toBytes e.1) = unhex e.2.toList := by
  unfold sha256
  rw [find?_table (by decide +kernel) he]

/-- The digest is one to one on the vectors. -/
theorem sha256_injOn : Set.InjOn sha256 {b | ∃ e ∈ table, b = toBytes e.1} := by
  have hdigests : (table.map (fun e => unhex e.2.toList)).Nodup := by decide +kernel
  rintro _ ⟨e, he, rfl⟩ _ ⟨e', he', rfl⟩ h
  rw [sha256_table he, sha256_table he'] at h
  rw [List.inj_on_of_nodup_map hdigests he he' h]

theorem parse_signed {d : GraphDelta} {sig : String}
    (h : byteLen (writeValue (.obj (signed d sig))) ≤ 2 ^ 20) :
    parse (toStr (.obj (signed d sig))) = .ok (.obj (signed d sig)) :=
  parseWith_toStr (P := fun _ => False) (fun _ h => h.elim) (signed_wf d sig)
    (by rwa [toStr, utf8ByteSize_ofList])

theorem hashed_signed {d : GraphDelta} {sig : String} {b : ByteArray}
    (hsize : byteLen (writeValue (.obj (signed d sig))) ≤ 2 ^ 20)
    (hd : parsePayload prims (payloadOf (signed d sig)) = .ok d)
    (h : DagStore.Hashed prims Empty (toStr (.obj (signed d sig))) b) :
    b = toBytes (payloadOf (signed d sig)) ∨ ∃ origin route query_keys,
      Op.addState origin route query_keys ∈ d.ops ∧
        b = toBytes (stateKeyValue Empty origin route query_keys) := by
  obtain ⟨m, hm, hb⟩ := h
  obtain rfl := Value.obj.inj (Except.ok.inj ((parse_signed hsize).symm.trans hm))
  refine hb.imp_right ?_
  rintro ⟨d', hd', hop⟩
  obtain rfl := Except.ok.inj (hd.symm.trans hd')
  exact hop

theorem collisionFree : DagStore.CollisionFree prims Empty {w | w ∈ [childWire, rootWire]} := by
  have hprims : prims.sha256 = sha256 := by simp only [prims]
  rw [DagStore.CollisionFree, hprims]
  refine Set.InjOn.mono ?_ sha256_injOn
  rintro b ⟨w, hw, hb⟩
  simp only [List.mem_cons, List.not_mem_nil, or_false, Set.mem_ofPred_eq] at hw
  unfold table
  rcases hw with rfl | rfl
  · have hd : parsePayload prims (payloadOf (signed child CHILD_SIG)) = .ok child := by
      decide +kernel
    have hsize : byteLen (writeValue (.obj (signed child CHILD_SIG))) ≤ 2 ^ 20 := by decide +kernel
    rcases hashed_signed hsize hd hb with heq | ⟨o, r, q, hop, heq⟩
    · exact ⟨_, .tail _ (.head _), heq⟩
    · simp only [child, List.mem_cons, Op.addState.injEq, reduceCtorEq, List.not_mem_nil,
        or_false] at hop
      obtain ⟨rfl, rfl, rfl⟩ := hop
      exact ⟨_, .tail _ (.tail _ (.tail _ (.head _))), heq⟩
  · have hd : parsePayload prims (payloadOf (signed root ROOT_SIG)) = .ok root := by
      decide +kernel
    have hsize : byteLen (writeValue (.obj (signed root ROOT_SIG))) ≤ 2 ^ 20 := by decide +kernel
    rcases hashed_signed hsize hd hb with heq | ⟨o, r, q, hop, heq⟩
    · exact ⟨_, .head _, heq⟩
    · simp only [root, List.mem_cons, Op.addState.injEq, reduceCtorEq, List.not_mem_nil,
        or_false] at hop
      obtain ⟨rfl, rfl, rfl⟩ := hop
      exact ⟨_, .tail _ (.tail _ (.head _)), heq⟩

end Golden

/-- The invariant on the vectors, the child arriving before its parent. -/
theorem DagStore.consistent_golden :
    DagStore.Consistent Golden.prims Empty (DagStore.insertWires Golden.prims Empty Golden.store
        [Golden.childWire, Golden.rootWire]) ∧
      (DagStore.insertWires Golden.prims Empty Golden.store
        [Golden.childWire, Golden.rootWire]).orphans.size ≤ Golden.config.max_orphans ∧
      (DagStore.insertWires Golden.prims Empty Golden.store
        [Golden.childWire, Golden.rootWire]).nodes.size ≤ Golden.config.max_nodes :=
  DagStore.consistent_insertWires Golden.new_config (by decide) Golden.collisionFree

end Secdogie.Graph
