/-
# `Secdogie.Lib.Utf8` — texts as their UTF-8 bytes

A text is the encoding of a list of characters.  It may be cut in front of a
byte that does not continue a character, and nowhere else.  An ASCII byte is a
character of its own: the text can be cut before and after it
(`isText_append_cons`), so a search that stops at ASCII bytes only, or passes
over ASCII bytes only, ends where a text may be cut.
-/
import Mathlib

namespace Secdogie.Utf8

/-- A byte in the middle of a character. -/
def isContinuation (b : UInt8) : Bool := decide (0x80 ≤ b ∧ b < 0xc0)

/-- What is left of a text may begin like this. -/
def isBoundary : List UInt8 → Bool
  | [] => true
  | b :: _ => !isContinuation b

def isAscii (b : UInt8) : Bool := decide (b < 0x80)

/-- The bytes are those of a text. -/
def IsText (t : List UInt8) : Prop := ∃ s : List Char, s.flatMap String.utf8EncodeChar = t

/-- An ASCII character is one byte; of another all bytes but the first are in the
middle. -/
theorem encode_cases (c : Char) :
    (∃ b, String.utf8EncodeChar c = [b] ∧ isAscii b = true) ∨
      ∃ b t, String.utf8EncodeChar c = b :: t ∧ isAscii b = false ∧ isContinuation b = false ∧
        ∀ x ∈ t, isContinuation x = true ∧ isAscii x = false := by
  have hlow : ∀ n < 0x80, isAscii (UInt8.ofNat n) = true := by decide
  have hlead : ∀ n < 0x100, 0xc0 ≤ n →
      isAscii (UInt8.ofNat n) = false ∧ isContinuation (UInt8.ofNat n) = false := by decide +kernel
  have hmid : ∀ n < 0xc0, 0x80 ≤ n →
      isContinuation (UInt8.ofNat n) = true ∧ isAscii (UInt8.ofNat n) = false := by decide +kernel
  rw [String.utf8EncodeChar]
  split_ifs with h₁ h₂ h₃
  · exact .inl ⟨_, rfl, hlow _ (by omega)⟩
  · obtain ⟨ha, hc⟩ := hlead (c.val.toNat / 64 % 32 + 0xc0) (by omega) (by omega)
    refine .inr ⟨_, _, rfl, ha, hc, ?_⟩
    rw [List.forall_mem_singleton]
    exact hmid _ (by omega) (by omega)
  · obtain ⟨ha, hc⟩ := hlead (c.val.toNat / 4096 % 16 + 0xe0) (by omega) (by omega)
    refine .inr ⟨_, _, rfl, ha, hc, ?_⟩
    rw [List.forall_mem_cons, List.forall_mem_singleton]
    exact ⟨hmid _ (by omega) (by omega), hmid _ (by omega) (by omega)⟩
  · obtain ⟨ha, hc⟩ := hlead (c.val.toNat / 262144 % 8 + 0xf0) (by omega) (by omega)
    refine .inr ⟨_, _, rfl, ha, hc, ?_⟩
    rw [List.forall_mem_cons, List.forall_mem_cons, List.forall_mem_singleton]
    exact ⟨hmid _ (by omega) (by omega), hmid _ (by omega) (by omega), hmid _ (by omega) (by omega)⟩

theorem isText_nil : IsText [] := ⟨[], rfl⟩

theorem IsText.append {t u : List UInt8} (ht : IsText t) (hu : IsText u) : IsText (t ++ u) := by
  obtain ⟨s, rfl⟩ := ht
  obtain ⟨s', rfl⟩ := hu
  exact ⟨s ++ s', List.flatMap_append⟩

theorem IsText.isBoundary {t : List UInt8} (ht : IsText t) : isBoundary t = true := by
  obtain ⟨s, rfl⟩ := ht
  cases s with
  | nil => rfl
  | cons c s =>
      rw [List.flatMap_cons]
      rcases encode_cases c with ⟨b, hb, hascii⟩ | ⟨b, t, hb, -, hcont, -⟩
      · rw [hb, List.cons_append, Utf8.isBoundary, isContinuation, Bool.not_eq_true',
          decide_eq_false_iff_not]
        rw [isAscii, decide_eq_true_eq] at hascii
        exact fun h => absurd hascii (UInt8.not_lt.mpr h.1)
      · rw [hb, List.cons_append, Utf8.isBoundary, hcont]
        rfl

/-- A text can be cut before and after an ASCII byte. -/
theorem isText_append_cons {t u : List UInt8} {b : UInt8} (hb : isAscii b = true)
    (h : IsText (t ++ b :: u)) : IsText t ∧ IsText (b :: u) ∧ IsText u := by
  obtain ⟨s, hs⟩ := h
  induction s generalizing t with
  | nil =>
      have hnil : ([] : List UInt8) = t ++ b :: u := hs
      simp at hnil
  | cons c s ih =>
      rw [List.flatMap_cons] at hs
      rcases List.append_eq_append_iff.mp hs with ⟨a, ha, hrest⟩ | ⟨a, ha, hrest⟩
      · -- the byte comes after the first character
        obtain ⟨ht, hbu, hu⟩ := ih hrest
        refine ⟨?_, hbu, hu⟩
        rw [ha]
        exact IsText.append ⟨[c], by simp⟩ ht
      · cases a with
        | nil =>
            obtain ⟨ht, hbu, hu⟩ := ih (t := []) (by simpa using hrest.symm)
            rw [List.append_nil] at ha
            refine ⟨⟨[c], ?_⟩, hbu, hu⟩
            rw [← ha, List.flatMap_singleton]
        | cons x a =>
            -- the byte is in the first character, and so it is all of it
            obtain ⟨rfl, hu⟩ := List.cons.inj hrest
            rcases encode_cases c with ⟨b', hb', -⟩ | ⟨b', t', hb', hlead, -, hmid⟩
            · rw [hb'] at ha
              have ht : t = [] ∧ a = [] := by
                cases t with
                | nil => exact ⟨rfl, (List.cons.inj ha).2.symm⟩
                | cons y t => simp at ha
              obtain ⟨rfl, rfl⟩ := ht
              have hbx := (List.cons.inj ha).1
              subst hbx
              have hu : u = s.flatMap String.utf8EncodeChar := hu
              have htext : IsText u := ⟨s, hu.symm⟩
              refine ⟨isText_nil, ?_, htext⟩
              exact IsText.append (t := [b']) ⟨[c], by rw [List.flatMap_singleton, hb']⟩ htext
            · exfalso
              have hmem : b ∈ b' :: t' := by
                rw [← hb', ha]
                exact List.mem_append_right _ List.mem_cons_self
              rcases List.mem_cons.mp hmem with rfl | hmem
              · rw [hb] at hlead
                cases hlead
              · rw [(hmid b hmem).2] at hb
                cases hb

/-- Where it may be cut, both parts are texts. -/
theorem isText_append {t u : List UInt8} (hu : Utf8.isBoundary u = true) (h : IsText (t ++ u)) :
    IsText t ∧ IsText u := by
  obtain ⟨s, hs⟩ := h
  induction s generalizing t with
  | nil =>
      obtain ⟨rfl, rfl⟩ := List.append_eq_nil_iff.mp (Eq.symm hs)
      exact ⟨isText_nil, isText_nil⟩
  | cons c s ih =>
      rw [List.flatMap_cons] at hs
      rcases List.append_eq_append_iff.mp hs with ⟨a, ha, hrest⟩ | ⟨a, ha, hrest⟩
      · obtain ⟨ht, hu⟩ := ih hrest
        refine ⟨?_, hu⟩
        rw [ha]
        exact IsText.append ⟨[c], by simp⟩ ht
      · cases a with
        | nil =>
            have hu : u = s.flatMap String.utf8EncodeChar := hrest
            rw [List.append_nil] at ha
            exact ⟨⟨[c], by rw [← ha, List.flatMap_singleton]⟩, s, hu.symm⟩
        | cons x a =>
            cases t with
            | nil => exact ⟨isText_nil, c :: s, by rw [List.flatMap_cons]; exact hs⟩
            | cons y t =>
                -- what is left would begin in the middle of the first character
                exfalso
                have hx : isContinuation x = true := by
                  rcases encode_cases c with ⟨b, hb, -⟩ | ⟨b, t', hb, -, -, hmid⟩
                  · rw [hb] at ha
                    simp at ha
                  · rw [hb] at ha
                    have htail := (List.cons.inj ha).2
                    exact (hmid x (by rw [htail]; simp)).1
                rw [hrest, List.cons_append, Utf8.isBoundary, hx] at hu
                cases hu

theorem isText_of_ascii {t u : List UInt8} (ht : ∀ b ∈ t, isAscii b = true) (h : IsText (t ++ u)) :
    IsText u := by
  induction t with
  | nil => exact h
  | cons b t ih =>
      refine ih (fun x hx => ht x (List.mem_cons_of_mem _ hx)) ?_
      exact (isText_append_cons (t := []) (ht b List.mem_cons_self) h).2.2

section

variable {p : UInt8 → Bool} {t : List UInt8}

/-- A search that passes over ASCII bytes only. -/
theorem isText_dropWhile_ascii (hp : ∀ b, p b = true → isAscii b = true) (h : IsText t) :
    IsText (t.dropWhile p) := by
  rw [← List.takeWhile_append_dropWhile (p := p) (l := t)] at h
  exact isText_of_ascii (fun b hb => hp b (List.mem_takeWhile_imp hb)) h

/-- A search that stops at ASCII bytes only. -/
theorem isText_dropWhile (hp : ∀ b, p b = false → isAscii b = true) (h : IsText t) :
    IsText (t.takeWhile p) ∧ IsText (t.dropWhile p) := by
  rw [← List.takeWhile_append_dropWhile (p := p) (l := t)] at h
  cases hd : t.dropWhile p with
  | nil =>
      rw [hd, List.append_nil] at h
      exact ⟨h, isText_nil⟩
  | cons b u =>
      have hb : p b = false := by
        have hne : t.dropWhile p ≠ [] := by
          rw [hd]
          exact List.cons_ne_nil _ _
        have hhead := List.head_dropWhile_not p hne
        simp only [hd, List.head_cons] at hhead
        exact hhead
      rw [hd] at h
      obtain ⟨h₁, h₂, -⟩ := isText_append_cons (hp b hb) h
      exact ⟨h₁, h₂⟩

end

end Secdogie.Utf8
