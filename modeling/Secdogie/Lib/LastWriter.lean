/-
# `Secdogie.Lib.LastWriter` — keeping the newest of what arrives

A register keeps what it has unless something newer arrives: `le x c` says
that `x` is no newer than what is kept.  The relation is a total preorder,
except that there may be elements that compare with nothing (NaN).

What the register ends with depends on the order of arrival exactly when an
element that compares with nothing is not alone, or two different elements
are both newest (`settles_iff`).
-/
import Mathlib

namespace Secdogie.LastWriter

section

variable {α : Type} (le : α → α → Bool)

def newer (cur : Option α) (x : α) : Option α :=
  match cur with
  | none => some x
  | some c => if le x c then some c else some x

def newest (l : List α) : Option α := l.foldl (newer le) none

/-- Nothing of `S` is newer. -/
def Top (S : Set α) (x : α) : Prop := x ∈ S ∧ ∀ y ∈ S, le y x = true

/-- There is one element only, or everything compares and the newest is one. -/
def Settles (nan : α → Prop) (S : Set α) : Prop :=
  (∀ x ∈ S, ∀ y ∈ S, x = y) ∨
    ((∀ x ∈ S, ¬ nan x) ∧ ∀ x y, Top le S x → Top le S y → x = y)

end

section

variable {α : Type} {le : α → α → Bool} {nan : α → Prop}

theorem newest_concat (l : List α) (x : α) : newest le (l ++ [x]) = newer le (newest le l) x := by
  rw [newest, List.foldl_append]
  rfl

variable (le) in
theorem newer_some (cur : Option α) (x : α) : ∃ c, newer le cur x = some c := by
  cases cur with
  | none => exact ⟨x, rfl⟩
  | some c =>
      rw [newer]
      split_ifs
      · exact ⟨c, rfl⟩
      · exact ⟨x, rfl⟩

/-- What is kept arrived. -/
theorem mem_of_newest {l : List α} {c : α} (h : newest le l = some c) : c ∈ l := by
  induction l using List.reverseRecOn generalizing c with
  | nil => cases h
  | append_singleton l x ih =>
      rw [newest_concat] at h
      cases hl : newest le l with
      | none =>
          rw [hl] at h
          obtain rfl := Option.some.inj h
          simp
      | some c' =>
          rw [hl, newer] at h
          split_ifs at h
          · obtain rfl := Option.some.inj h
            exact List.mem_append_left _ (ih hl)
          · obtain rfl := Option.some.inj h
            simp

theorem newest_eq_none {l : List α} : newest le l = none ↔ l = [] := by
  constructor
  · intro h
    cases l using List.reverseRecOn with
    | nil => rfl
    | append_singleton l x =>
        rw [newest_concat] at h
        obtain ⟨c, hc⟩ := newer_some le (newest le l) x
        rw [hc] at h
        cases h
  · rintro rfl
    rfl

/-- Where everything compares, nothing that arrived is newer than what is kept. -/
theorem le_newest (htotal : ∀ a b, ¬ nan a → ¬ nan b → le a b = true ∨ le b a = true)
    (htrans : ∀ a b c, le a b = true → le b c = true → le a c = true) {l : List α} {c : α}
    (hnan : ∀ x ∈ l, ¬ nan x) (h : newest le l = some c) : ∀ x ∈ l, le x c = true := by
  have hrefl : ∀ a, ¬ nan a → le a a = true := fun a ha => (htotal a a ha ha).elim id id
  induction l using List.reverseRecOn generalizing c with
  | nil => cases h
  | append_singleton l y ih =>
      have hy : ¬ nan y := hnan y (by simp)
      have hl : ∀ x ∈ l, ¬ nan x := fun x hx => hnan x (List.mem_append_left _ hx)
      rw [newest_concat] at h
      intro x hx
      cases hkept : newest le l with
      | none =>
          rw [hkept] at h
          obtain rfl := Option.some.inj h
          obtain rfl := newest_eq_none.mp hkept
          obtain rfl : x = y := by simpa using hx
          exact hrefl x hy
      | some c' =>
          rw [hkept, newer] at h
          have hold := ih hl hkept
          split_ifs at h with hle
          · obtain rfl := Option.some.inj h
            rcases List.mem_append.mp hx with hx | hx
            · exact hold x hx
            · rwa [List.mem_singleton.mp hx]
          · obtain rfl := Option.some.inj h
            have hc' : le c' y = true :=
              (htotal y c' hy (hl c' (mem_of_newest hkept))).resolve_left hle
            rcases List.mem_append.mp hx with hx | hx
            · exact htrans x c' y (hold x hx) hc'
            · rw [List.mem_singleton.mp hx]
              exact hrefl y hy

/-- What nothing is newer than stays. -/
theorem newest_cons_of_top {x : α} {l : List α} (h : ∀ y ∈ l, le y x = true) :
    newest le (x :: l) = some x := by
  induction l using List.reverseRecOn with
  | nil => rfl
  | append_singleton l y ih =>
      rw [← List.cons_append, newest_concat, ih fun z hz => h z (List.mem_append_left _ hz), newer,
        if_pos (h y (by simp))]

/-- What compares with nothing is kept when it arrives. -/
theorem newest_concat_nan {x : α} (hx : ∀ y, le x y = false) (l : List α) :
    newest le (l ++ [x]) = some x := by
  rw [newest_concat]
  cases newest le l with
  | none => rfl
  | some c => rw [newer, hx c, if_neg (by simp)]

/-- Every order of arrival of the same elements, with any repetitions, ends
with the same one just when they settle. -/
theorem settles_iff (htotal : ∀ a b, ¬ nan a → ¬ nan b → le a b = true ∨ le b a = true)
    (htrans : ∀ a b c, le a b = true → le b c = true → le a c = true)
    (hnan : ∀ a b, le a b = true → ¬ nan a ∧ ¬ nan b) {l : List α} :
    Settles le nan {x | x ∈ l} ↔
      ∀ l' : List α, (∀ x, x ∈ l' ↔ x ∈ l) → newest le l' = newest le l := by
  have hleft : ∀ {a}, nan a → ∀ b, le a b = false := fun ha b => by
    by_contra h
    exact (hnan _ b (by simpa using h)).1 ha
  have hright : ∀ {a}, nan a → ∀ b, le b a = false := fun ha b => by
    by_contra h
    exact (hnan b _ (by simpa using h)).2 ha
  constructor
  · intro h l' hsame
    cases hl : newest le l with
    | none =>
        rw [newest_eq_none] at hl ⊢
        rw [hl] at hsame
        exact List.eq_nil_iff_forall_not_mem.mpr fun x hx => List.not_mem_nil ((hsame x).mp hx)
    | some c =>
        have hc := mem_of_newest hl
        cases hl' : newest le l' with
        | none =>
            rw [newest_eq_none] at hl'
            rw [hl'] at hsame
            exact absurd ((hsame c).mpr hc) List.not_mem_nil
        | some c' =>
            have hc' := (hsame c').mp (mem_of_newest hl')
            refine congrArg some ?_
            rcases h with hone | ⟨hall, htop⟩
            · exact hone c' hc' c hc
            · refine htop c' c ⟨hc', fun y hy => ?_⟩ ⟨hc, le_newest htotal htrans hall hl⟩
              exact le_newest htotal htrans (fun x hx => hall x ((hsame x).mp hx)) hl' y
                ((hsame y).mpr hy)
  · intro h
    by_cases hall : ∀ x ∈ l, ¬ nan x
    · refine .inr ⟨hall, fun x y hx hy => ?_⟩
      have hfirst : ∀ x, Top le {x | x ∈ l} x → newest le l = some x := fun x hx => by
        rw [← newest_cons_of_top hx.2]
        refine (h (x :: l) fun z => ?_).symm
        rw [List.mem_cons]
        exact ⟨fun hz => hz.elim (fun heq => heq ▸ hx.1) id, .inr⟩
      exact Option.some.inj ((hfirst x hx).symm.trans (hfirst y hy))
    · push Not at hall
      obtain ⟨x, hx, hxnan⟩ := hall
      have hlast : newest le l = some x := by
        rw [← newest_concat_nan (hleft hxnan) l]
        refine (h (l ++ [x]) fun z => ?_).symm
        rw [List.mem_append, List.mem_singleton]
        exact ⟨fun hz => hz.elim id (fun heq => heq ▸ hx), .inl⟩
      have heq : ∀ y ∈ l, y = x := fun y hy => by
        have hy' : newest le (l ++ [x] ++ [y]) = some y := by
          rw [newest_concat, newest_concat_nan (hleft hxnan), newer, hright hxnan,
            if_neg (by simp)]
        refine Option.some.inj (hy'.symm.trans ((h _ fun z => ?_).trans hlast))
        rw [List.mem_append, List.mem_append, List.mem_singleton, List.mem_singleton]
        exact ⟨fun hz => hz.elim (fun hz => hz.elim id (fun heq => heq ▸ hx)) (fun heq => heq ▸ hy),
          fun hz => .inl (.inl hz)⟩
      exact .inl fun a ha b hb => (heq a ha).trans (heq b hb).symm

end

end Secdogie.LastWriter
