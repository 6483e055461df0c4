/-
# `Secdogie.Lib.Words` — the words of a text, and the blanks between them

The words are what stands between the blanks.  Set one after another with one
separator between them they give the text without the blanks around it, and
with one separator for each run of blanks (`unwords_words`).
-/
import Mathlib

namespace Secdogie

variable {α : Type*} (p : α → Bool)

/-- What stands between the blanks. -/
def words (l : List α) : List (List α) := (l.splitOnP p).filter (! ·.isEmpty)

/-- One separator for each run of blanks; `run` within one. -/
def squeeze (s : α) : Bool → List α → List α
  | _, [] => []
  | run, c :: l =>
      if p c then if run then squeeze s true l else s :: squeeze s true l
      else c :: squeeze s false l

variable {p}

@[simp] theorem words_nil : words p [] = [] := rfl

@[simp] theorem squeeze_nil (s : α) (run : Bool) : squeeze p s run [] = [] := by
  cases run <;> rfl

theorem words_cons_of_blank {c : α} (h : p c = true) (l : List α) :
    words p (c :: l) = words p l := by
  rw [words, List.splitOnP_cons_eq_if_modifyHead, if_pos h]
  rfl

/-- A word of one letter. -/
theorem words_cons_cons_of_blank {c d : α} (hc : p c = false) (hd : p d = true) (l : List α) :
    words p (c :: d :: l) = [c] :: words p l := by
  rw [words, List.splitOnP_cons_eq_if_modifyHead, if_neg (by rw [hc]; exact Bool.false_ne_true),
    List.splitOnP_cons_eq_if_modifyHead, if_pos hd]
  rfl

/-- A word goes on. -/
theorem words_cons_cons {c d : α} (hc : p c = false) (hd : p d = false) (l : List α) :
    words p (c :: d :: l) = (words p (d :: l)).modifyHead (c :: ·) := by
  have hsplit : ∀ {a : α}, p a = false → ∀ l : List α,
      (a :: l).splitOnP p = (l.splitOnP p).modifyHead (a :: ·) := by
    intro a ha l
    rw [List.splitOnP_cons_eq_if_modifyHead, if_neg (by rw [ha]; exact Bool.false_ne_true)]
  rw [words, words, hsplit hc, hsplit hd]
  cases hl : l.splitOnP p with
  | nil => exact absurd hl (List.splitOnP_ne_nil p l)
  | cons w ws => rfl

theorem words_singleton {c : α} (h : p c = false) : words p [c] = [[c]] := by
  rw [words, List.splitOnP_cons_eq_if_modifyHead, if_neg (by rw [h]; exact Bool.false_ne_true)]
  rfl

theorem words_dropWhile (l : List α) : words p (l.dropWhile p) = words p l := by
  induction l with
  | nil => rfl
  | cons c l ih =>
      by_cases hc : p c = true
      · rw [List.dropWhile_cons_of_pos hc, ih, words_cons_of_blank hc]
      · rw [List.dropWhile_cons_of_neg hc]

theorem words_concat_of_blank {b : α} (h : p b = true) (l : List α) :
    words p (l ++ [b]) = words p l := by
  rw [words, words, List.splitOnP_append_cons l [] h, List.filter_append]
  exact List.append_nil _

theorem words_rdropWhile (l : List α) : words p (l.rdropWhile p) = words p l := by
  induction l using List.reverseRecOn with
  | nil => rfl
  | append_singleton l c ih =>
      by_cases hc : p c = true
      · rw [List.rdropWhile_concat_pos _ _ _ hc, ih, words_concat_of_blank hc]
      · rw [List.rdropWhile_concat_neg _ _ _ hc]

/-- What begins with a letter has a word. -/
theorem words_cons_ne_nil {c : α} (h : p c = false) (l : List α) : words p (c :: l) ≠ [] := by
  induction l generalizing c with
  | nil =>
      rw [words_singleton h]
      exact List.cons_ne_nil _ _
  | cons d l ih =>
      by_cases hd : p d = true
      · rw [words_cons_cons_of_blank h hd]
        exact List.cons_ne_nil _ _
      · rw [words_cons_cons h (Bool.eq_false_of_not_eq_true hd)]
        intro hnil
        exact ih (Bool.eq_false_of_not_eq_true hd) (List.modifyHead_eq_nil_iff.mp hnil)

/-- So has what ends in one. -/
theorem words_ne_nil {l : List α} (hne : l ≠ []) (hlast : ∀ c ∈ l.getLast?, p c = false) :
    words p l ≠ [] := by
  induction l with
  | nil => exact absurd rfl hne
  | cons c l ih =>
      by_cases hc : p c = true
      · rw [words_cons_of_blank hc]
        cases l with
        | nil => cases hc.symm.trans (hlast c rfl)
        | cons d l => exact ih (List.cons_ne_nil _ _) hlast
      · exact words_cons_ne_nil (Bool.eq_false_of_not_eq_true hc) l

theorem unwords_cons (s : α) (w : List α) {ws : List (List α)} (hne : ws ≠ []) :
    [s].intercalate (w :: ws) = w ++ s :: [s].intercalate ws := by
  cases ws with
  | nil => exact absurd rfl hne
  | cons w' ws => rfl

theorem unwords_modifyHead (s c : α) {ws : List (List α)} (hne : ws ≠ []) :
    [s].intercalate (ws.modifyHead (c :: ·)) = c :: [s].intercalate ws := by
  cases ws with
  | nil => exact absurd rfl hne
  | cons w ws =>
      cases ws with
      | nil => rfl
      | cons w' ws => rfl

/-- By induction on the text, with the cases of the words: a blank, a word of one letter, and a
word that goes on. -/
theorem unwords_words_of_last (s : α) {l : List α} (hlast : ∀ c ∈ l.getLast?, p c = false) :
    [s].intercalate (words p l) = squeeze p s true l := by
  induction l with
  | nil => rfl
  | cons c l ih =>
      cases l with
      | nil =>
          have hc : p c = false := hlast c rfl
          rw [words_singleton hc, squeeze, if_neg (by rw [hc]; exact Bool.false_ne_true),
            squeeze_nil]
          rfl
      | cons d l =>
          have hnext := ih hlast
          by_cases hc : p c = true
          · rw [words_cons_of_blank hc, hnext, squeeze.eq_def p s true (c :: d :: l)]
            exact (if_pos hc).symm
          · have hc' := Bool.eq_false_of_not_eq_true hc
            rw [squeeze.eq_def p s true (c :: d :: l)]
            dsimp only
            rw [if_neg hc]
            by_cases hd : p d = true
            · rw [words_cons_of_blank hd] at hnext
              have hl : l ≠ [] := by
                rintro rfl
                cases hd.symm.trans (hlast d rfl)
              have hlast' : ∀ e ∈ l.getLast?, p e = false := by
                cases l with
                | nil => exact absurd rfl hl
                | cons e l => exact hlast
              rw [words_cons_cons_of_blank hc' hd, unwords_cons s [c] (words_ne_nil hl hlast'),
                hnext, squeeze, squeeze, if_pos hd, if_pos hd]
              rfl
            · have hd' := Bool.eq_false_of_not_eq_true hd
              rw [words_cons_cons hc' hd', unwords_modifyHead s c (words_cons_ne_nil hd' l), hnext,
                squeeze, squeeze, if_neg hd, if_neg hd]

/-- **The words, one separator between them.** -/
theorem unwords_words (s : α) (l : List α) :
    [s].intercalate (words p l) = squeeze p s true ((l.dropWhile p).rdropWhile p) := by
  rw [← words_dropWhile, ← words_rdropWhile]
  refine unwords_words_of_last s fun c hc => ?_
  have hne : (l.dropWhile p).rdropWhile p ≠ [] := by
    intro hnil
    rw [hnil] at hc
    exact nomatch hc
  rw [List.getLast?_eq_some_getLast hne] at hc
  cases hc
  exact Bool.eq_false_of_not_eq_true (List.rdropWhile_last_not p _ hne)

end Secdogie
