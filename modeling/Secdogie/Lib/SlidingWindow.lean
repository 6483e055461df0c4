/-
# `Secdogie.Lib.SlidingWindow` — numbers that are admitted once, and not too late

What a sliding window is for, as a set: a number is admitted if it is new and
less than `size` behind the highest admitted one.  An implementation keeps that
highest number and a bit for each of the `size` numbers from it down; `Shows`
says what they have to be, and each of the three ways in which it can move
keeps that.
-/
import Mathlib

namespace Secdogie.SlidingWindow

/-- The number is new, and less than `size` behind each that was admitted. -/
def Admits (size : ℕ) (admitted : Finset ℕ) (n : ℕ) : Prop :=
  n ∉ admitted ∧ ∀ a ∈ admitted, a < n + size

instance (size : ℕ) (admitted : Finset ℕ) (n : ℕ) : Decidable (Admits size admitted n) :=
  inferInstanceAs (Decidable (_ ∧ _))

/-- The numbers admitted after one more has come. -/
def admitting (size : ℕ) (admitted : Finset ℕ) (n : ℕ) : Finset ℕ :=
  if Admits size admitted n then insert n admitted else admitted

/-- The highest number and the bits below it show which numbers were admitted. -/
structure Shows (size : ℕ) (top : Option ℕ) (bit : ℕ → Bool) (admitted : Finset ℕ) : Prop where
  nothing : top = none → admitted = ∅
  highest : ∀ h, top = some h → h ∈ admitted ∧ ∀ a ∈ admitted, a ≤ h
  bits : ∀ h, top = some h → ∀ i < size, bit i = true ↔ i ≤ h ∧ h - i ∈ admitted

variable {size : ℕ} {highest : Option ℕ} {bit bit' : ℕ → Bool} {admitted : Finset ℕ} {n h : ℕ}

theorem shows_empty (size : ℕ) (bit : ℕ → Bool) : Shows size none bit ∅ where
  nothing _ := rfl
  highest _ hh := nomatch hh
  bits _ hh := nomatch hh

/-! ## What is admitted -/

theorem Shows.admits_first (s : Shows size highest bit admitted) (hnone : highest = none) (n : ℕ) :
    Admits size admitted n := by
  rw [s.nothing hnone]
  exact ⟨Finset.notMem_empty n, fun a ha => absurd ha (Finset.notMem_empty a)⟩

theorem Shows.admits_above (s : Shows size highest bit admitted) (hh : highest = some h)
    (hlt : h < n) : Admits size admitted n := by
  refine ⟨fun hn => ?_, fun a ha => ?_⟩
  · exact absurd ((s.highest h hh).2 n hn) (Nat.not_le.mpr hlt)
  · have hle := (s.highest h hh).2 a ha
    omega

/-- A number that is not above the highest is admitted if it is in the window and its bit is not
set. -/
theorem Shows.admits_below (s : Shows size highest bit admitted) (hh : highest = some h)
    (hle : n ≤ h) : Admits size admitted n ↔ h - n < size ∧ bit (h - n) = false := by
  obtain ⟨hmem, hmax⟩ := s.highest h hh
  constructor
  · rintro ⟨hnew, hnear⟩
    have hlt := hnear h hmem
    have hin : h - n < size := by omega
    refine ⟨hin, Bool.eq_false_of_not_eq_true fun hbit => hnew ?_⟩
    have hold := ((s.bits h hh (h - n) hin).mp hbit).2
    rwa [Nat.sub_sub_self hle] at hold
  · rintro ⟨hin, hbit⟩
    refine ⟨fun hn => ?_, fun a ha => ?_⟩
    · have hset := (s.bits h hh (h - n) hin).mpr ⟨Nat.sub_le h n, by rwa [Nat.sub_sub_self hle]⟩
      exact Bool.false_ne_true (hbit.symm.trans hset)
    · have hle' := hmax a ha
      omega

/-! ## The three moves -/

theorem Shows.first (s : Shows size highest bit admitted) (hnone : highest = none)
    (hbit : ∀ i < size, bit' i = true ↔ i = 0) :
    Shows size (some n) bit' (insert n admitted) := by
  rw [s.nothing hnone]
  refine ⟨fun hh => (nomatch hh), ?_, ?_⟩
  · intro h hh
    obtain rfl := Option.some.inj hh
    exact ⟨Finset.mem_insert_self _ _, fun a ha => (Finset.mem_singleton.mp ha).le⟩
  · intro h hh i hi
    obtain rfl := Option.some.inj hh
    rw [hbit i hi, Finset.mem_insert, or_iff_left (Finset.notMem_empty _)]
    omega

/-- The bits move up as far as the highest does. -/
theorem Shows.above (s : Shows size highest bit admitted) (hh : highest = some h) (hlt : h < n)
    (hbit : ∀ i < size, bit' i = true ↔ i = 0 ∨ n - h ≤ i ∧ bit (i - (n - h)) = true) :
    Shows size (some n) bit' (insert n admitted) := by
  obtain ⟨hmem, hmax⟩ := s.highest h hh
  refine ⟨fun hh => (nomatch hh), ?_, ?_⟩
  · intro h' hh'
    obtain rfl := Option.some.inj hh'
    refine ⟨Finset.mem_insert_self _ _, fun a ha => ?_⟩
    rcases Finset.mem_insert.mp ha with rfl | ha
    · exact le_rfl
    · exact (hmax a ha).trans hlt.le
  · intro h' hh' i hi
    obtain rfl := Option.some.inj hh'
    rw [hbit i hi, Finset.mem_insert]
    by_cases hup : n - h ≤ i
    · rw [s.bits h hh (i - (n - h)) (by omega)]
      have heq : h - (i - (n - h)) = n - i := by omega
      rw [heq]
      have hne : n - i ≠ n := by omega
      constructor
      · rintro (hi0 | ⟨-, hle, hold⟩)
        · omega
        · exact ⟨by omega, .inr hold⟩
      · rintro ⟨hle, hn | hold⟩
        · exact absurd hn hne
        · exact .inr ⟨hup, by omega, hold⟩
    · have hnew : n - i ∉ admitted := fun hold => by
        have hle := hmax _ hold
        omega
      constructor
      · rintro (rfl | ⟨hle, -⟩)
        · exact ⟨Nat.zero_le n, .inl (Nat.sub_zero n)⟩
        · exact absurd hle hup
      · rintro ⟨hle, hn | hold⟩
        · exact .inl (by omega)
        · exact absurd hold hnew

/-- One more bit is set. -/
theorem Shows.below (s : Shows size highest bit admitted) (hh : highest = some h) (hle : n ≤ h)
    (hbit : ∀ i < size, bit' i = true ↔ i = h - n ∨ bit i = true) :
    Shows size (some h) bit' (insert n admitted) := by
  obtain ⟨hmem, hmax⟩ := s.highest h hh
  refine ⟨fun hh => (nomatch hh), ?_, ?_⟩
  · intro h' hh'
    obtain rfl := Option.some.inj hh'
    refine ⟨Finset.mem_insert_of_mem hmem, fun a ha => ?_⟩
    rcases Finset.mem_insert.mp ha with rfl | ha
    · exact hle
    · exact hmax a ha
  · intro h' hh' i hi
    obtain rfl := Option.some.inj hh'
    rw [hbit i hi, s.bits h hh i hi, Finset.mem_insert]
    constructor
    · rintro (rfl | ⟨hle', hold⟩)
      · exact ⟨Nat.sub_le h n, .inl (Nat.sub_sub_self hle)⟩
      · exact ⟨hle', .inr hold⟩
    · rintro ⟨hle', hn | hold⟩
      · exact .inl (by omega)
      · exact .inr ⟨hle', hold⟩

end Secdogie.SlidingWindow
