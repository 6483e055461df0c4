/-
# `Secdogie.Lib.BestPath` — the cheapest path, and the first of those in order

Paths are lists of nodes.  Entering a node costs something, always more than
nothing, and of two paths the cheaper is better, or of equally cheap ones the
smaller list.  A path that is made longer gets worse, and of two paths to the
same node the better one stays better when both are continued: so a search may
settle a node with the best path to it and go on from there.

`Frontier` is what such a search keeps to between two steps; `Frontier.reaches`
says that some waiting path is at least as good as any path to a node that is
not settled.
-/
import Mathlib

namespace Secdogie.BestPath

variable {V K : Type*}

section

variable [AddCommGroup K] (cost : V → K)

/-- What is paid for entering the nodes after the first. -/
def pathCost (p : List V) : K := (p.tail.map cost).sum

/-- The first path is at least as good as the second. -/
def Better [LinearOrder K] [LinearOrder V] (p q : List V) : Prop :=
  pathCost cost p < pathCost cost q ∨ pathCost cost p = pathCost cost q ∧ p ≤ q

variable {cost}

theorem pathCost_append {p : List V} (hp : p ≠ []) (s : List V) :
    pathCost cost (p ++ s) = pathCost cost p + (s.map cost).sum := by
  rw [pathCost, List.tail_append_of_ne_nil hp, List.map_append, List.sum_append, pathCost]

theorem pathCost_snoc {p : List V} (hp : p ≠ []) (x : V) :
    pathCost cost (p ++ [x]) = pathCost cost p + cost x := by
  rw [pathCost_append hp, List.map_singleton, List.sum_singleton]

end

section

variable [AddCommGroup K] [LinearOrder K] [IsOrderedAddMonoid K] {cost : V → K}

variable (hpos : ∀ x, 0 < cost x)

include hpos

theorem sum_nonneg (s : List V) : 0 ≤ (s.map cost).sum :=
  List.sum_nonneg fun c hc => by
    obtain ⟨x, -, rfl⟩ := List.mem_map.mp hc
    exact (hpos x).le

/-- Going on costs something. -/
theorem pathCost_lt_of_start {p q : List V} (hp : p ≠ []) (h : p <+: q) (hne : p ≠ q) :
    pathCost cost p < pathCost cost q := by
  obtain ⟨s, rfl⟩ := h
  cases s with
  | nil => exact absurd (List.append_nil p).symm hne
  | cons x s =>
      rw [pathCost_append hp, List.map_cons, List.sum_cons]
      have := sum_nonneg hpos s
      have := hpos x
      exact lt_add_of_pos_right _ (add_pos_of_pos_of_nonneg ‹_› ‹_›)

variable [LinearOrder V]

omit [IsOrderedAddMonoid K] hpos in
theorem Better.refl (p : List V) : Better cost p p := .inr ⟨rfl, le_rfl⟩

omit [IsOrderedAddMonoid K] hpos in
theorem Better.trans {p q r : List V} (hpq : Better cost p q) (hqr : Better cost q r) :
    Better cost p r := by
  rcases hpq with hpq | ⟨hpq, hpq'⟩
  · rcases hqr with hqr | ⟨hqr, -⟩
    · exact .inl (hpq.trans hqr)
    · exact .inl (hqr ▸ hpq)
  · rcases hqr with hqr | ⟨hqr, hqr'⟩
    · exact .inl (hpq ▸ hqr)
    · exact .inr ⟨hpq.trans hqr, hpq'.trans hqr'⟩

theorem better_of_start {p q : List V} (hp : p ≠ []) (h : p <+: q) : Better cost p q := by
  by_cases hne : p = q
  · exact hne ▸ Better.refl p
  · exact .inl (pathCost_lt_of_start hpos hp h hne)

omit [AddCommGroup K] [LinearOrder K] [IsOrderedAddMonoid K] hpos in
/-- Of lists neither of which begins the other, the order is decided before they end. -/
theorem append_lt_append : ∀ {p q : List V}, p < q → ¬ p <+: q → ∀ s t, p ++ s < q ++ t
  | [], q, _, hpre, _, _ => absurd q.nil_prefix hpre
  | a :: p, [], h, _, _, _ => absurd h (by simp)
  | a :: p, b :: q, h, hpre, s, t => by
      rw [List.cons_append, List.cons_append, List.cons_lt_cons_iff]
      rcases List.cons_lt_cons_iff.mp h with hab | ⟨rfl, hpq⟩
      · exact .inl hab
      · refine .inr ⟨rfl, append_lt_append hpq (fun hp => hpre ?_) s t⟩
        exact (List.prefix_cons_inj a).mpr hp

/-- The better of two paths stays so when both are continued by the same node. -/
theorem Better.snoc {p q : List V} (hp : p ≠ []) (hq : q ≠ []) (h : Better cost p q) (x : V) :
    Better cost (p ++ [x]) (q ++ [x]) := by
  rw [Better, pathCost_snoc hp, pathCost_snoc hq]
  rcases h with hlt | ⟨heq, hle⟩
  · exact .inl (add_lt_add_left hlt _)
  · refine .inr ⟨by rw [heq], ?_⟩
    rcases eq_or_lt_of_le hle with rfl | hlt
    · exact le_rfl
    · refine (append_lt_append hlt (fun hpre => ?_) _ _).le
      exact (pathCost_lt_of_start hpos hp hpre hlt.ne).ne heq

end

/-! ## What a search may follow -/

section

variable (next : V → Finset V) (ok : V → Prop) (src : V)

/-- A path from the source that visits no node twice, over nodes that may be entered. -/
structure Open (p : List V) : Prop where
  head : p.head? = some src
  nodup : p.Nodup
  chain : p.IsChain (fun x y => y ∈ next x)
  ok : ∀ x ∈ p.tail, ok x

variable {next ok src}

theorem Open.ne_nil {p : List V} (h : Open next ok src p) : p ≠ [] := by
  rintro rfl
  exact nomatch h.head

theorem open_single (next : V → Finset V) (ok : V → Prop) (src : V) : Open next ok src [src] :=
  ⟨rfl, List.nodup_singleton src, List.isChain_singleton src, fun _ hx => nomatch hx⟩

theorem Open.left {p s : List V} (h : Open next ok src (p ++ s)) (hp : p ≠ []) :
    Open next ok src p where
  head := by
    have hhead := h.head
    rwa [List.head?_append_of_ne_nil _ hp] at hhead
  nodup := h.nodup.of_append_left
  chain := h.chain.left_of_append
  ok := fun x hx => h.ok x (by
    rw [List.tail_append_of_ne_nil hp]
    exact List.mem_append_left _ hx)

theorem Open.snoc {p : List V} {u x : V} (h : Open next ok src p) (hu : p.getLast? = some u)
    (hx : x ∈ next u) (hnew : x ∉ p) (hok : ok x) : Open next ok src (p ++ [x]) where
  head := by
    rw [List.head?_append_of_ne_nil _ h.ne_nil]
    exact h.head
  nodup := List.nodup_append.mpr ⟨h.nodup, List.nodup_singleton x, fun a ha b hb heq => by
    rw [List.mem_singleton] at hb
    exact hnew (hb ▸ heq ▸ ha)⟩
  chain := by
    refine List.isChain_append.mpr ⟨h.chain, List.isChain_singleton x, fun a ha b hb => ?_⟩
    obtain rfl : u = a := Option.some.inj (hu.symm.trans ha)
    obtain rfl : x = b := Option.some.inj hb
    exact hx
  ok := fun y hy => by
    rw [List.tail_append_of_ne_nil h.ne_nil, List.mem_append, List.mem_singleton] at hy
    rcases hy with hy | rfl
    · exact h.ok y hy
    · exact hok

end

/-! ## A search that settles the best first -/

section

variable [LinearOrder V] [AddCommGroup K] [LinearOrder K] (next : V → Finset V) (ok : V → Prop)
  (src : V) (cost : V → K)

/-- The best path to a settled node, and its continuations, which wait. -/
structure Settled (waiting : List (K × List V)) (settled : Finset V) (u : V) (p : List V) :
    Prop where
  isOpen : Open next ok src p
  last : p.getLast? = some u
  within : ∀ x ∈ p, x ∈ settled
  best : ∀ q, Open next ok src q → q.getLast? = some u → Better cost p q
  continued : ∀ x ∈ next u, x ∉ settled → ok x → (pathCost cost p + cost x, p ++ [x]) ∈ waiting

/-- What holds between the steps of the search. -/
structure Frontier (waiting : List (K × List V)) (settled : Finset V) : Prop where
  priced : ∀ e ∈ waiting, e.1 = pathCost cost e.2 ∧ Open next ok src e.2 ∧
    ∀ x ∈ e.2.dropLast, x ∈ settled
  begun : src ∈ settled ∨ (0, [src]) ∈ waiting
  settled : ∀ u ∈ settled, ∃ p, Settled next ok src cost waiting settled u p

variable {next ok src cost} [IsOrderedAddMonoid K] {waiting : List (K × List V)} {settled : Finset V}

omit [IsOrderedAddMonoid K] in
theorem frontier_start : Frontier next ok src cost [(0, [src])] ∅ where
  priced := fun e he => by
    obtain rfl := List.mem_singleton.mp he
    exact ⟨rfl, open_single next ok src, fun x hx => nomatch hx⟩
  begun := .inr (List.mem_singleton_self _)
  settled := fun u hu => absurd hu (Finset.notMem_empty u)

/-- Up to its first node that is not settled, a path is matched by one that waits. -/
theorem Frontier.reaches (hpos : ∀ x, 0 < cost x) (h : Frontier next ok src cost waiting settled)
    {q : List V} (hq : Open next ok src q) {v : V} (hv : q.getLast? = some v) (hnew : v ∉ settled) :
    ∃ e ∈ waiting, (∃ x, e.2.getLast? = some x ∧ x ∉ settled) ∧ Better cost e.2 q := by
  -- the first node that is not settled
  obtain ⟨l, x, r, rfl, hx, hl⟩ : ∃ l x r, q = l ++ x :: r ∧ x ∉ settled ∧ ∀ y ∈ l, y ∈ settled := by
    have hmem : ∃ x ∈ q, x ∉ settled := ⟨v, List.mem_of_getLast? hv, hnew⟩
    clear hq hv
    induction q with
    | nil => simp at hmem
    | cons a q ih =>
        by_cases ha : a ∈ settled
        · have htail : ∃ x ∈ q, x ∉ settled := by
            obtain ⟨x, hx, hx'⟩ := hmem
            rcases List.mem_cons.mp hx with rfl | hx
            · exact absurd ha hx'
            · exact ⟨x, hx, hx'⟩
          obtain ⟨l, x, r, rfl, hx, hl⟩ := ih htail
          refine ⟨a :: l, x, r, rfl, hx, fun y hy => ?_⟩
          rcases List.mem_cons.mp hy with rfl | hy
          · exact ha
          · exact hl y hy
        · exact ⟨[], a, q, rfl, ha, fun y hy => nomatch hy⟩
  have hpre : l ++ [x] <+: l ++ x :: r := ⟨r, by simp⟩
  rcases List.eq_nil_or_concat l with rfl | ⟨l, u, rfl⟩
  · obtain rfl : x = src := Option.some.inj hq.head
    refine ⟨(0, [x]), h.begun.resolve_left hx, ⟨x, rfl, hx⟩, ?_⟩
    exact better_of_start hpos (by simp) hpre
  · rw [List.concat_eq_append] at *
    have hne : l ++ [u] ≠ [] := by simp
    have hleft : Open next ok src (l ++ [u]) := hq.left hne
    obtain ⟨p, hp⟩ := h.settled u (hl u (by simp))
    have hedge : x ∈ next u := by
      have hchain := hq.chain
      rw [List.append_assoc] at hchain
      exact (List.isChain_append_cons_cons.mp hchain).2.1
    have hokx : ok x := hq.ok x (by
      rw [List.tail_append_of_ne_nil hne]
      exact List.mem_append_right _ List.mem_cons_self)
    refine ⟨_, hp.continued x hedge hx hokx, ⟨x, by simp, hx⟩, ?_⟩
    have hbetter := hp.best _ hleft (by simp)
    exact (hbetter.snoc hpos hp.isOpen.ne_nil hne x).trans (better_of_start hpos (by simp) hpre)

/-- What waits, other than the path taken off. -/
theorem mem_of_taken {α : Type*} {waiting rest : List α} {e x : α} (hperm : waiting.Perm (e :: rest))
    (hx : x ∈ waiting) (hne : x ≠ e) : x ∈ rest :=
  (List.mem_cons.mp (hperm.mem_iff.mp hx)).resolve_left hne

omit [IsOrderedAddMonoid K] in
/-- A path to a settled node is dropped. -/
theorem Frontier.skip (h : Frontier next ok src cost waiting settled) {e : K × List V}
    {rest : List (K × List V)} (hperm : waiting.Perm (e :: rest)) {u : V}
    (hlast : e.2.getLast? = some u) (hu : u ∈ settled) :
    Frontier next ok src cost rest settled where
  priced := fun x hx => h.priced x (hperm.mem_iff.mpr (List.mem_cons_of_mem e hx))
  begun := by
    rcases h.begun with hsrc | hwait
    · exact .inl hsrc
    · by_cases heq : ((0 : K), [src]) = e
      · subst heq
        obtain rfl : src = u := Option.some.inj hlast
        exact .inl hu
      · exact .inr (mem_of_taken hperm hwait heq)
  settled := fun w hw => by
    obtain ⟨p, hp⟩ := h.settled w hw
    refine ⟨p, hp.isOpen, hp.last, hp.within, hp.best, fun x hx hnew hok => ?_⟩
    refine mem_of_taken hperm (hp.continued x hx hnew hok) fun heq => hnew ?_
    subst heq
    obtain rfl : x = u := by simpa using hlast
    exact hu

/-- The best path that waits is the best to its last node, if that is not settled. -/
theorem Frontier.best (hpos : ∀ x, 0 < cost x) (h : Frontier next ok src cost waiting settled)
    {e : K × List V} (hmin : ∀ x ∈ waiting, Better cost e.2 x.2) {u : V} (hu : u ∉ settled)
    {q : List V} (hq : Open next ok src q) (hlast : q.getLast? = some u) : Better cost e.2 q := by
  obtain ⟨x, hx, -, hbetter⟩ := h.reaches hpos hq hlast hu
  exact (hmin x hx).trans hbetter

/-- The best path that waits settles its last node, and its continuations wait. -/
theorem Frontier.settle (hpos : ∀ x, 0 < cost x) (h : Frontier next ok src cost waiting settled)
    {e : K × List V} {rest pushed : List (K × List V)} (hperm : waiting.Perm (e :: rest))
    (hmin : ∀ x ∈ waiting, Better cost e.2 x.2) {u : V} (hlast : e.2.getLast? = some u)
    (hu : u ∉ settled)
    (hpushed : ∀ x, x ∈ pushed ↔ ∃ y ∈ next u, y ∉ insert u settled ∧ y ∉ e.2 ∧ ok y ∧
      x = (e.1 + cost y, e.2 ++ [y])) :
    Frontier next ok src cost (rest ++ pushed) (insert u settled) := by
  obtain ⟨hprice, hopen, hdrop⟩ := h.priced e (hperm.mem_iff.mpr List.mem_cons_self)
  have hwithin : ∀ x ∈ e.2, x ∈ insert u settled := by
    intro x hx
    rw [← List.dropLast_append_getLast? u hlast, List.mem_append, List.mem_singleton] at hx
    rcases hx with hx | rfl
    · exact Finset.mem_insert_of_mem (hdrop x hx)
    · exact Finset.mem_insert_self x settled
  refine ⟨fun x hx => ?_, ?_, fun w hw => ?_⟩
  · rcases List.mem_append.mp hx with hx | hx
    · obtain ⟨hprice', hopen', hdrop'⟩ := h.priced x (hperm.mem_iff.mpr (List.mem_cons_of_mem e hx))
      exact ⟨hprice', hopen', fun y hy => Finset.mem_insert_of_mem (hdrop' y hy)⟩
    · obtain ⟨y, hy, -, hfresh, hok, rfl⟩ := (hpushed x).mp hx
      refine ⟨?_, hopen.snoc hlast hy hfresh hok, fun z hz => hwithin z ?_⟩
      · rw [pathCost_snoc hopen.ne_nil, hprice]
      · simpa using hz
  · rcases h.begun with hsrc | hwait
    · exact .inl (Finset.mem_insert_of_mem hsrc)
    · by_cases heq : ((0 : K), [src]) = e
      · subst heq
        obtain rfl : src = u := Option.some.inj hlast
        exact .inl (Finset.mem_insert_self src settled)
      · exact .inr (List.mem_append_left _ (mem_of_taken hperm hwait heq))
  · rcases Finset.mem_insert.mp hw with rfl | hw
    · refine ⟨e.2, hopen, hlast, hwithin, fun q hq hq' => h.best hpos hmin hu hq hq', ?_⟩
      intro x hx hnew hok
      refine List.mem_append_right _ ((hpushed _).mpr ⟨x, hx, hnew, ?_, hok, by rw [hprice]⟩)
      exact fun hmem => hnew (hwithin x hmem)
    · obtain ⟨p, hp⟩ := h.settled w hw
      refine ⟨p, hp.isOpen, hp.last, fun x hx => Finset.mem_insert_of_mem (hp.within x hx), hp.best,
        fun x hx hnew hok => ?_⟩
      have hnew' : x ∉ settled := fun hmem => hnew (Finset.mem_insert_of_mem hmem)
      refine List.mem_append_left _
        (mem_of_taken hperm (hp.continued x hx hnew' hok) fun heq => hnew ?_)
      subst heq
      obtain rfl : x = u := by simpa using hlast
      exact Finset.mem_insert_self x settled

end

end Secdogie.BestPath
