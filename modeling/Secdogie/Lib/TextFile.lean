/-
# `Secdogie.Lib.TextFile` — files of lines that only ever grow

A file is bytes, and reading it as text fails unless they are UTF-8.  What is
appended is text, so it neither repairs nor breaks the reading
(`fromUTF8?_append`).  Lines are what is left between breaks; appending leaves
all of them alone but the last, which it continues (`splitOnP_append`).
-/
import Mathlib

namespace Secdogie

theorem isValidUTF8_append_iff {b : ByteArray} {s : String} :
    (b ++ s.toUTF8).IsValidUTF8 ↔ b.IsValidUTF8 := by
  constructor
  · intro h
    -- the appended text is a suffix that starts at a character boundary
    have hsize : (b ++ s.toUTF8).size = b.size + s.toUTF8.size := ByteArray.size_append
    have hvalid : (⟨b.size⟩ : String.Pos.Raw).IsValid (String.fromUTF8 _ h) := by
      rw [String.Pos.Raw.isValid_iff_isValidUTF8_extract_utf8ByteSize]
      refine ⟨?_, ?_⟩
      · have hle : b.size ≤ (b ++ s.toUTF8).size := hsize ▸ Nat.le_add_right _ _
        exact hle
      · have hextract : (b ++ s.toUTF8).extract b.size (b ++ s.toUTF8).size = s.toUTF8 := by
          rw [hsize, ByteArray.extract_append_eq_right rfl rfl]
        have hvalid : ((b ++ s.toUTF8).extract b.size (b ++ s.toUTF8).size).IsValidUTF8 := by
          rw [hextract]
          exact s.isValidUTF8
        exact hvalid
    have hzero := (String.Pos.Raw.isValid_iff_isValidUTF8_extract_zero.mp hvalid).2
    have hextract : (b ++ s.toUTF8).extract 0 b.size = b := ByteArray.extract_append_eq_left rfl
    have hzero : ((b ++ s.toUTF8).extract 0 b.size).IsValidUTF8 := hzero
    rwa [hextract] at hzero
  · intro h
    exact h.append s.isValidUTF8

theorem fromUTF8?_toUTF8 (s : String) : String.fromUTF8? s.toUTF8 = some s := by
  have hvalid : s.toUTF8.IsValidUTF8 := s.isValidUTF8
  rw [String.fromUTF8?, dif_pos hvalid]
  exact congrArg some (String.toByteArray_inj.mp rfl)

/-- Reading a file with text appended. -/
theorem fromUTF8?_append (b : ByteArray) (s : String) :
    String.fromUTF8? (b ++ s.toUTF8) = (String.fromUTF8? b).map (· ++ s) := by
  by_cases h : b.IsValidUTF8
  · rw [String.fromUTF8?, dif_pos (isValidUTF8_append_iff.mpr h), String.fromUTF8?, dif_pos h]
    exact congrArg some (String.toByteArray_inj.mp rfl)
  · rw [String.fromUTF8?, dif_neg (isValidUTF8_append_iff.not.mpr h), String.fromUTF8?, dif_neg h]
    rfl

section

variable {α : Type} (p : α → Bool)

/-- The lines that a break ends. -/
def closedLines (l : List α) : List (List α) := (l.splitOnP p).dropLast

/-- What follows the last break. -/
def openLine (l : List α) : List α := (l.splitOnP p).getLastD []

theorem closedLines_append_openLine (l : List α) :
    l.splitOnP p = closedLines p l ++ [openLine p l] := by
  have hne := List.splitOnP_ne_nil p l
  rw [closedLines, openLine, List.getLastD_eq_getLast?, List.getLast?_eq_some_getLast hne]
  exact (List.dropLast_append_getLast hne).symm

theorem lines_of_splitOnP {l : List α} {ls : List (List α)} {m : List α}
    (h : l.splitOnP p = ls ++ [m]) : closedLines p l = ls ∧ openLine p l = m := by
  rw [closedLines, openLine, h]
  exact ⟨List.dropLast_concat, by simp⟩

/-- Appending continues the last line. -/
theorem splitOnP_append (a b : List α) :
    (a ++ b).splitOnP p = closedLines p a ++ (openLine p a ++ b).splitOnP p := by
  induction a with
  | nil => simp [closedLines, openLine, List.splitOnP_nil]
  | cons x a ih =>
      have hrest := closedLines_append_openLine p a
      rw [List.cons_append, List.splitOnP_cons_eq_if_modifyHead]
      cases hx : p x with
      | true =>
          have hsplit : (x :: a).splitOnP p = ([] :: closedLines p a) ++ [openLine p a] := by
            rw [List.splitOnP_cons_eq_if_modifyHead, hx, if_pos rfl, hrest]
            rfl
          obtain ⟨hclosed, hopen⟩ := lines_of_splitOnP p hsplit
          rw [if_pos rfl, hclosed, hopen, ih]
          rfl
      | false =>
          have hsplit : (x :: a).splitOnP p =
              (closedLines p a ++ [openLine p a]).modifyHead (x :: ·) := by
            rw [List.splitOnP_cons_eq_if_modifyHead, hx, if_neg (by simp), hrest]
          rw [if_neg (by simp), ih]
          cases hcl : closedLines p a with
          | nil =>
              rw [hcl] at hsplit
              obtain ⟨hclosed, hopen⟩ : closedLines p (x :: a) = [] ∧ openLine p (x :: a) = _ :=
                lines_of_splitOnP p hsplit
              rw [hclosed, hopen, List.nil_append, List.nil_append, List.cons_append,
                List.splitOnP_cons_eq_if_modifyHead, hx, if_neg (by simp)]
          | cons l ls =>
              rw [hcl] at hsplit
              obtain ⟨hclosed, hopen⟩ : closedLines p (x :: a) = (x :: l) :: ls ∧
                  openLine p (x :: a) = _ := lines_of_splitOnP p hsplit
              rw [hclosed, hopen]
              rfl

/-- A break at the end opens an empty line. -/
theorem splitOnP_concat_break {c : α} (hc : p c = true) (l : List α) :
    (l ++ [c]).splitOnP p = l.splitOnP p ++ [[]] := by
  induction l with
  | nil => simp [List.splitOnP_cons_eq_if_modifyHead, hc, List.splitOnP_nil]
  | cons x l ih =>
      rw [List.cons_append, List.splitOnP_cons_eq_if_modifyHead, List.splitOnP_cons_eq_if_modifyHead,
        ih]
      cases hx : p x with
      | true => rfl
      | false =>
          simp only [Bool.false_eq_true, if_false]
          cases hl : l.splitOnP p with
          | nil => exact absurd hl (List.splitOnP_ne_nil p l)
          | cons m ms => rfl

/-- Without a break there is one line. -/
theorem splitOnP_of_forall {l : List α} (h : ∀ c ∈ l, p c = false) : l.splitOnP p = [l] := by
  induction l with
  | nil => exact List.splitOnP_nil
  | cons x l ih =>
      rw [List.splitOnP_cons_eq_if_modifyHead, h x List.mem_cons_self, if_neg (by simp),
        ih fun c hc => h c (List.mem_cons_of_mem _ hc)]
      rfl

end

end Secdogie
