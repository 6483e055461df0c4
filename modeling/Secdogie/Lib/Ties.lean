/-
# `Secdogie.Lib.Ties` — what the order of a list decides

A maximum by a key that is not injective is the first of several, and a stable
sort leaves equal keys as they stood: both depend on the order of the list
where keys are tied, and nowhere else.  `argmax_agree_iff` says exactly when a
field of the maximum does not; `insertionSort_eq_of_perm` is the same for the
sorted list.
-/
import Mathlib

namespace Secdogie

open scoped List

variable {α γ κ : Type} [LinearOrder κ] {key : α → κ} {l l' : List α} {a b : α}

/-! ## The first maximum -/

/-- `a` has the greatest key of the list. -/
def Top (key : α → κ) (l : List α) (a : α) : Prop := a ∈ l ∧ ∀ x ∈ l, key x ≤ key a

theorem Top.perm (h : l.Perm l') (ha : Top key l a) : Top key l' a :=
  ⟨h.mem_iff.mp ha.1, fun x hx => ha.2 x (h.mem_iff.mpr hx)⟩

theorem top_of_argmax (h : l.argmax key = some a) : Top key l a :=
  ⟨List.argmax_mem h, fun _ hx => List.le_of_mem_argmax hx h⟩

theorem argmax_cons_of_le (h : ∀ x ∈ l, key x ≤ key a) : (a :: l).argmax key = some a := by
  rw [List.argmax_cons]
  rcases hl : l.argmax key with - | c
  · rfl
  · exact if_neg (not_lt.mpr (h c (List.argmax_mem hl)))

theorem exists_argmax (h : l ≠ []) : ∃ a, l.argmax key = some a :=
  Option.ne_none_iff_exists'.mp fun hnone => h (List.argmax_eq_none.mp hnone)

theorem exists_top (key : α → κ) (h : l ≠ []) : ∃ a, Top key l a :=
  (exists_argmax h).imp fun _ => top_of_argmax

/-- Each of the greatest is the first of them in some order. -/
theorem Top.exists_first (ha : Top key l a) :
    ∃ rest, (a :: rest).Perm l ∧ (a :: rest).argmax key = some a := by
  obtain ⟨s, t, rfl⟩ := List.append_of_mem ha.1
  refine ⟨s ++ t, List.perm_middle.symm, argmax_cons_of_le fun x hx => ha.2 x ?_⟩
  rcases List.mem_append.mp hx with hx | hx
  · exact List.mem_append_left _ hx
  · exact List.mem_append_right _ (List.mem_cons_of_mem _ hx)

theorem argmax_agree (f : α → γ) (hagree : ∀ a b, Top key l a → Top key l b → f a = f b)
    (h : l'.Perm l) : (l'.argmax key).map f = (l.argmax key).map f := by
  rcases hl : l.argmax key with - | a
  · obtain rfl := List.argmax_eq_none.mp hl
    obtain rfl := h.eq_nil
    rfl
  · obtain ⟨b, hb⟩ : ∃ b, l'.argmax key = some b := by
      refine exists_argmax fun hnil => ?_
      subst hnil
      rw [← h.nil_eq] at hl
      exact absurd hl (by simp)
    rw [hb]
    exact congrArg some (hagree b a ((top_of_argmax hb).perm h) (top_of_argmax hl))

/-- What is read off the first maximum does not depend on the order exactly
where all the greatest agree on it. -/
theorem argmax_agree_iff (d : γ) (f : α → γ) :
    (∀ l' : List α, l'.Perm l → (l'.argmax key).elim d f = (l.argmax key).elim d f) ↔
      ∀ a b, Top key l a → Top key l b → f a = f b := by
  refine ⟨fun h a b ha hb => ?_, fun h l' hl => ?_⟩
  · obtain ⟨s, hs, has⟩ := ha.exists_first
    obtain ⟨t, ht, hbt⟩ := hb.exists_first
    have hsame := (h _ hs).trans (h _ ht).symm
    rwa [has, hbt] at hsame
  · have hmap := congrArg (fun o => o.elim d id) (argmax_agree f h hl)
    simpa only [Option.elim_map, Function.id_comp] using hmap

theorem head_orderedInsert (r : α → α → Prop) [DecidableRel r] (a : α) (s : List α) :
    (s.orderedInsert r a).head? = some (s.head?.elim a fun b => if r a b then a else b) := by
  cases s with
  | nil => rfl
  | cons b s =>
      rw [List.orderedInsert_cons]
      split_ifs with h <;> simp [h]

/-- The stable sort from the greatest down begins with the first maximum. -/
theorem head_insertionSort_desc (l : List α) :
    (l.insertionSort fun a b => key b ≤ key a).head? = l.argmax key := by
  induction l with
  | nil => rfl
  | cons a l ih =>
      rw [List.insertionSort_cons, head_orderedInsert, ih, List.argmax_cons]
      rcases l.argmax key with - | c
      · rfl
      · simp only [Option.elim_some]
        rcases lt_or_ge (key a) (key c) with h | h
        · rw [if_neg (not_le.mpr h), if_pos h]
        · rw [if_pos h, if_neg (not_lt.mpr h)]

theorem max?_perm {l l' : List κ} (h : l.Perm l') : l.max? = l'.max? := by
  rcases hl : l.max? with - | a
  · obtain rfl := List.max?_eq_none_iff.mp hl
    rw [h.nil_eq.symm, List.max?_nil]
  · obtain ⟨ha, hle⟩ := List.max?_eq_some_iff.mp hl
    exact (List.max?_eq_some_iff.mpr
      ⟨h.mem_iff.mp ha, fun b hb => hle b (h.mem_iff.mpr hb)⟩).symm

theorem min?_perm {l l' : List κ} (h : l.Perm l') : l.min? = l'.min? := by
  rcases hl : l.min? with - | a
  · obtain rfl := List.min?_eq_none_iff.mp hl
    rw [h.nil_eq.symm, List.min?_nil]
  · obtain ⟨ha, hle⟩ := List.min?_eq_some_iff.mp hl
    exact (List.min?_eq_some_iff.mpr
      ⟨h.mem_iff.mp ha, fun b hb => hle b (h.mem_iff.mpr hb)⟩).symm

/-- Each order of a part of the list is the part of an order of the list. -/
theorem exists_perm_filter (p : α → Bool) (h : l'.Perm (l.filter p)) :
    ∃ whole : List α, whole.Perm l ∧ whole.filter p = l' := by
  refine ⟨l' ++ l.filter (!p ·), (h.append_right _).trans (List.filter_append_perm p l), ?_⟩
  have hall : ∀ a ∈ l', p a = true := fun a ha => List.of_mem_filter (h.mem_iff.mp ha)
  rw [List.filter_append, List.filter_eq_self.mpr hall, List.filter_filter]
  simp

/-! ## The stable sort -/

/-- Elements of one key stay as they stood. -/
theorem filter_insertionSort (p : α → Bool)
    (hp : ∀ a b, p a = true → p b = true → key a ≤ key b) (l : List α) :
    (l.insertionSort fun a b => key a ≤ key b).filter p = l.filter p := by
  have hsub : l.filter p <+ l.insertionSort fun a b => key a ≤ key b := by
    refine List.sublist_insertionSort ?_ List.filter_sublist
    refine List.pairwise_of_forall_mem_list fun a ha b hb => ?_
    exact hp a b (List.of_mem_filter ha) (List.of_mem_filter hb)
  have hkept := hsub.filter p
  rw [List.filter_filter, List.filter_congr (q := p) fun a _ => Bool.and_self _] at hkept
  refine (hkept.eq_of_length ?_).symm
  exact ((List.perm_insertionSort _ l).filter p).length_eq.symm

/-- Without two different elements of one key, the order does not matter. -/
theorem insertionSort_eq_of_perm (h : l.Perm l')
    (hinj : ∀ a ∈ l, ∀ b ∈ l, key a = key b → a = b) :
    (l.insertionSort fun a b => key a ≤ key b) = l'.insertionSort fun a b => key a ≤ key b := by
  refine @List.Perm.eq_of_pairwise _ (fun a b => key a ≤ key b) _ _ ?_ ?_ ?_ ?_
  · intro a b ha hb hab hba
    refine hinj a ((List.mem_insertionSort _).mp ha) b ?_ (le_antisymm hab hba)
    exact h.mem_iff.mpr ((List.mem_insertionSort _).mp hb)
  · exact List.pairwise_insertionSort _ l
  · exact List.pairwise_insertionSort _ l'
  · exact (List.perm_insertionSort _ l).trans (h.trans (List.perm_insertionSort _ l').symm)

/-! ## Pairs of a list -/

/-- Each pair of the list, the earlier first. -/
def pairs : List α → List (α × α)
  | [] => []
  | a :: l => l.map (fun b => (a, b)) ++ pairs l

theorem mem_pairs : (a, b) ∈ pairs l ↔ [a, b] <+ l := by
  induction l with
  | nil => simp [pairs]
  | cons c l ih =>
      rw [pairs, List.mem_append, ih, List.sublist_cons_iff]
      constructor
      · rintro (h | h)
        · obtain ⟨x, hx, heq⟩ := List.mem_map.mp h
          obtain ⟨rfl, rfl⟩ := Prod.mk.inj heq
          exact .inr ⟨[x], rfl, List.singleton_sublist.mpr hx⟩
        · exact .inl h
      · rintro (h | ⟨r, hr, hsub⟩)
        · exact .inr h
        · obtain ⟨rfl, rfl⟩ := List.cons.inj hr
          exact .inl (List.mem_map.mpr ⟨b, List.singleton_sublist.mp hsub, rfl⟩)

/-- Two places of the list, in either order. -/
theorem subperm_pair_iff : [a, b] <+~ l ↔ [a, b] <+ l ∨ [b, a] <+ l := by
  constructor
  · rintro ⟨s, hs, hsub⟩
    rcases List.perm_pair.mp hs with rfl | rfl
    · exact .inl hsub
    · exact .inr hsub
  · rintro (h | h)
    · exact h.subperm
    · exact ⟨[b, a], List.Perm.swap a b [], h⟩

/-- What is collected from the pairs, in a way that is blind to their order,
is the same for each order of the list. -/
theorem filterMap_pairs_perm (f : α → α → Option γ) (h : l.Perm l') :
    (∀ a b, [a, b] <+~ l → f a b = f b a) →
    ((pairs l).filterMap fun p => f p.1 p.2).Perm ((pairs l').filterMap fun p => f p.1 p.2) := by
  induction h with
  | nil => intro _; exact .refl _
  | cons a h ih =>
      intro hsym
      simp only [pairs, List.filterMap_append, List.filterMap_map]
      refine (h.filterMap _).append (ih fun x y hxy => hsym x y ?_)
      exact hxy.trans (List.sublist_cons_self _ _).subperm
  | swap a b l =>
      intro hsym
      simp only [pairs, List.filterMap_append, List.filterMap_map, List.map_cons,
        List.filterMap_cons, Function.comp_apply]
      have hpair : [b, a] <+ b :: a :: l := ((List.nil_sublist l).cons_cons a).cons_cons b
      rw [hsym b a hpair.subperm]
      have hmid := (@List.perm_append_comm _ (l.filterMap (f b)) (l.filterMap (f a))).append_right
        ((pairs l).filterMap fun p => f p.1 p.2)
      simp only [List.append_assoc] at hmid
      cases f a b with
      | none => exact hmid
      | some c => exact hmid.cons c
  | trans h₁ h₂ ih₁ ih₂ =>
      intro hsym
      exact (ih₁ hsym).trans (ih₂ fun x y hxy => hsym x y (hxy.trans h₁.symm.subperm))

end Secdogie
