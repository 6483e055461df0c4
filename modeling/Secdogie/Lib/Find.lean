/-
# `Secdogie.Lib.Find` — the first place of a word in a text

A scanner that looks for a word takes the first place where it stands, whatever
it is part of.  `find_eq_some_iff` says which place that is, and `find_mid` is
the case a reader hopes for: the word stands where it was written, and nowhere
before.
-/
import Mathlib

namespace Secdogie

variable {α : Type*} [DecidableEq α]

/-- The first place of a word in a text. -/
def find (w : List α) : List α → Option ℕ
  | [] => if w = [] then some 0 else none
  | a :: l => if w <+: a :: l then some 0 else (find w l).map (· + 1)

/-- The first place from `p` on. -/
def findFrom (w l : List α) (p : ℕ) : Option ℕ := (find w (l.drop p)).map (· + p)

theorem find_eq_some_iff {w : List α} : ∀ {l : List α} {i : ℕ}, find w l = some i ↔
    i ≤ l.length ∧ w <+: l.drop i ∧ ∀ j < i, ¬ w <+: l.drop j
  | [], i => by
      rw [find]
      split_ifs with hw
      · simp only [Option.some_inj, List.length_nil, Nat.le_zero, List.drop_nil, hw]
        exact ⟨fun h => ⟨h.symm, List.nil_prefix, fun j hj => by omega⟩, fun h => h.1.symm⟩
      · simp only [List.drop_nil, List.prefix_nil, hw, false_and, and_false]
  | a :: l, i => by
      rw [find]
      split_ifs with hw
      · rw [Option.some_inj]
        constructor
        · rintro rfl
          exact ⟨Nat.zero_le _, hw, fun j hj => absurd hj (Nat.not_lt_zero j)⟩
        · rintro ⟨_, _, hfirst⟩
          exact (Nat.eq_zero_of_not_pos (fun hpos => hfirst 0 hpos hw)).symm
      · rw [Option.map_eq_some_iff]
        constructor
        · rintro ⟨k, hk, rfl⟩
          obtain ⟨hle, hat, hfirst⟩ := find_eq_some_iff.mp hk
          refine ⟨by simpa using hle, hat, fun j hj => ?_⟩
          cases j with
          | zero => exact hw
          | succ j => exact hfirst j (Nat.lt_of_succ_lt_succ hj)
        · rintro ⟨hle, hat, hfirst⟩
          cases i with
          | zero => exact absurd hat hw
          | succ i =>
              exact ⟨i, find_eq_some_iff.mpr ⟨by simpa using hle, hat,
                fun j hj => hfirst (j + 1) (Nat.succ_lt_succ hj)⟩, rfl⟩

theorem find_eq_none_iff {w : List α} : ∀ {l : List α}, find w l = none ↔ ¬ w <:+: l
  | [] => by simp [find, List.infix_nil]
  | a :: l => by
      rw [find, List.infix_cons_iff]
      split_ifs with hw
      · simp [hw]
      · rw [Option.map_eq_none_iff, find_eq_none_iff]
        simp [hw]

/-- The word stands where it was written, if it stands nowhere before. -/
theorem find_mid {w pre : List α} (post : List α)
    (hfirst : ∀ j < pre.length, ¬ w <+: (pre ++ w ++ post).drop j) :
    find w (pre ++ w ++ post) = some pre.length := by
  refine find_eq_some_iff.mpr ⟨by simp, ?_, hfirst⟩
  rw [List.append_assoc, List.drop_left]
  exact List.prefix_append w post

end Secdogie
