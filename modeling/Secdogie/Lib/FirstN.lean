/-
# `Secdogie.Lib.FirstN` — the first few members of an ordered set

A program sorts a collection and keeps its first `k` items.  `firstN lt S k`
says which these are without mention of a list: the members of `S` with
fewer than `k` members before them (`mem_take_iff_firstN`).
-/
import Mathlib

namespace Secdogie

variable {α : Type*}

/-- The members of `S` with fewer than `k` members of `S` before them. -/
def firstN (lt : α → α → Prop) (S : Set α) (k : ℕ) : Set α :=
  {x | x ∈ S ∧ {y | y ∈ S ∧ lt y x}.ncard < k}

theorem firstN_subset (lt : α → α → Prop) (S : Set α) (k : ℕ) : firstN lt S k ⊆ S :=
  fun _ hx => hx.1

section

variable {lt : α → α → Prop} [DecidableRel lt]

/-- In a strictly sorted list a place is a number of predecessors. -/
theorem mem_take_iff_countP (hasymm : ∀ a b, lt a b → ¬ lt b a) : ∀ {l : List α} {k : ℕ} {x : α},
    l.Pairwise lt → (x ∈ l.take k ↔ x ∈ l ∧ l.countP (fun y => lt y x) < k)
  | [], k, x, _ => by simp
  | a :: l, 0, x, _ => by simp
  | a :: l, k + 1, x, h => by
      obtain ⟨ha, hl⟩ := List.pairwise_cons.mp h
      have ih := mem_take_iff_countP hasymm (k := k) (x := x) hl
      rw [List.take_succ_cons, List.mem_cons, List.mem_cons, ih, List.countP_cons]
      constructor
      · rintro (rfl | ⟨hx, hk⟩)
        · have hnone : l.countP (fun y => lt y x) = 0 :=
            List.countP_eq_zero.mpr (fun y hy => by simpa using hasymm x y (ha y hy))
          have hself : ¬ lt x x := fun hxx => hasymm x x hxx hxx
          exact ⟨.inl rfl, by simp [hnone, hself]⟩
        · exact ⟨.inr hx, by simpa [ha x hx] using hk⟩
      · rintro ⟨rfl | hx, hk⟩
        · exact .inl rfl
        · exact .inr ⟨hx, by simpa [ha x hx] using hk⟩

omit [DecidableRel lt] in
theorem nodup_of_pairwise (hasymm : ∀ a b, lt a b → ¬ lt b a) {l : List α} (h : l.Pairwise lt) :
    l.Nodup :=
  h.imp (fun {a b} hab heq => by
    subst heq
    exact hasymm a a hab hab)

/-- The first `k` items of a strictly sorted list are the `firstN` of the set
it enumerates. -/
theorem mem_take_iff_firstN (hasymm : ∀ a b, lt a b → ¬ lt b a) {l : List α} {S : Set α}
    (hS : ∀ x, x ∈ l ↔ x ∈ S) (h : l.Pairwise lt) {k : ℕ} {x : α} :
    x ∈ l.take k ↔ x ∈ firstN lt S k := by
  classical
  rw [mem_take_iff_countP hasymm h, hS, firstN]
  refine and_congr_right (fun _ => ?_)
  have hset : {y | y ∈ S ∧ lt y x} = ((l.filter (fun y => lt y x)).toFinset : Set α) := by
    ext y
    simp [hS]
  rw [hset, Set.ncard_coe_finset, List.toFinset_card_of_nodup
    ((nodup_of_pairwise hasymm h).filter _), List.countP_eq_length_filter]

end

end Secdogie
