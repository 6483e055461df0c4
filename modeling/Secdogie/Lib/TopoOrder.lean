/-
# `Secdogie.Lib.TopoOrder` — orders in which every item comes after what it needs

`need a b` says that `a` needs `b`.  A list in which everything comes after what
it needs leaves no room for a cycle (`not_cyclic_of_ordered`), and a finite,
nonempty set in which everything needs something of the set has one
(`cyclic_of_stuck`): the two halves of any argument about an algorithm that
removes items one by one.
-/
import Mathlib

namespace Secdogie.TopoOrder

variable {α : Type*}

/-- Something needs itself, directly or not. -/
def Cyclic (need : α → α → Prop) : Prop := ∃ a, Relation.TransGen need a a

/-- Everything in the list comes after what it needs. -/
def Ordered (need : α → α → Prop) (l : List α) : Prop :=
  ∀ l₁ a l₂, l = l₁ ++ a :: l₂ → ∀ b, need a b → b ∈ l₁

variable {need : α → α → Prop}

theorem ordered_nil : Ordered need [] := by
  intro l₁ a l₂ h
  simp at h

theorem ordered_snoc {l : List α} {a : α} (h : Ordered need l) (ha : ∀ b, need a b → b ∈ l) :
    Ordered need (l ++ [a]) := by
  intro l₁ x l₂ heq b hb
  rcases List.eq_nil_or_concat l₂ with rfl | ⟨l₂, z, rfl⟩
  · obtain ⟨rfl, hx⟩ := List.append_inj' heq rfl
    obtain rfl : a = x := by simpa using hx
    exact ha b hb
  · rw [List.concat_eq_append, ← List.cons_append, ← List.append_assoc] at heq
    obtain ⟨rfl, -⟩ := List.append_inj' heq rfl
    exact h l₁ x l₂ rfl b hb

theorem Ordered.mem {l : List α} (h : Ordered need l) {a b : α} (ha : a ∈ l) (hn : need a b) :
    b ∈ l := by
  obtain ⟨l₁, l₂, rfl⟩ := List.append_of_mem ha
  exact List.mem_append_left _ (h l₁ a l₂ rfl b hn)

/-- What is needed comes earlier. -/
theorem Ordered.idxOf_lt [DecidableEq α] {l : List α} (hl : l.Nodup) (h : Ordered need l) {a b : α}
    (ha : a ∈ l) (hn : need a b) : l.idxOf b < l.idxOf a := by
  obtain ⟨l₁, l₂, rfl⟩ := List.append_of_mem ha
  have hb := h l₁ a l₂ rfl b hn
  have hal : a ∉ l₁ := fun hmem =>
    (List.nodup_append.mp hl).2.2 a hmem a List.mem_cons_self rfl
  rw [List.idxOf_append_of_mem hb, List.idxOf_append_of_notMem hal, List.idxOf_cons_self]
  exact Nat.lt_of_lt_of_le (List.idxOf_lt_length_iff.mpr hb) (Nat.le_add_right _ _)

theorem not_cyclic_of_ordered {l : List α} (hl : l.Nodup) (h : Ordered need l)
    (hall : ∀ a b, need a b → a ∈ l) : ¬ Cyclic need := by
  classical
  have hdown : ∀ a b, Relation.TransGen need a b → l.idxOf b < l.idxOf a := by
    intro a b hab
    induction hab with
    | single hn => exact h.idxOf_lt hl (hall _ _ hn) hn
    | tail _ hn ih => exact (h.idxOf_lt hl (hall _ _ hn) hn).trans ih
  rintro ⟨a, ha⟩
  exact lt_irrefl _ (hdown a a ha)

/-- In a finite set in which everything needs something of the set there is a cycle. -/
theorem cyclic_of_stuck {s : Set α} (hfin : s.Finite) {a : α} (ha : a ∈ s)
    (hstuck : ∀ x ∈ s, ∃ y ∈ s, need x y) : Cyclic need := by
  by_contra hacyclic
  have : Finite s := hfin
  let r : s → s → Prop := fun y x => Relation.TransGen need x.1 y.1
  have : IsTrans s r := ⟨fun _ _ _ hyx hzy => hzy.trans hyx⟩
  have : Std.Irrefl r := ⟨fun x hx => hacyclic ⟨x.1, hx⟩⟩
  obtain ⟨x, -, hmin⟩ := (Finite.wellFounded_of_trans_of_irrefl r).has_min Set.univ ⟨⟨a, ha⟩, trivial⟩
  obtain ⟨y, hy, hn⟩ := hstuck x.1 x.2
  exact hmin ⟨y, hy⟩ trivial (.single hn)

end Secdogie.TopoOrder
