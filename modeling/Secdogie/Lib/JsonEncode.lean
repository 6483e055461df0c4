/-
# `Secdogie.Lib.JsonEncode` — the values that have no bytes

A text is encoded unless a character of it is a lone surrogate.  The text of a value
has such a character exactly when a string in the value has, key or not
(`spelled_of_text`), and the order of members makes no difference to it.
-/
import Secdogie.Lib.JsonText

namespace Secdogie.Json

section

variable {R : Numerals} {pad : Str} {P : Nat → Prop}

/-- A character that is not printable ASCII, and no control, is written as it is. -/
theorem escapeChar_high {c : Nat} (hc : 0x7f ≤ c) : escapeChar c = [c] := by
  have hquote : ¬ (c = '"'.toNat ∨ c = '\\'.toNat) := by
    have h₁ : '"'.toNat = 0x22 := rfl
    have h₂ : '\\'.toNat = 0x5c := rfl
    omega
  rw [escapeChar, shortChar, if_neg hquote, if_neg (by omega), if_neg (by omega), if_neg (by omega),
    if_neg (by omega), if_neg (by omega)]
  exact if_neg (by omega)

theorem spelled_of_quote (hplain : ∀ c < 0x7f, P c) {s : Str} (h : ∀ c ∈ quote s, P c) : ∀ c ∈ s, P c := by
  intro c hc
  by_cases hlow : c < 0x7f
  · exact hplain c hlow
  · refine h c (List.mem_append_left _ (List.mem_cons_of_mem _ (List.mem_flatMap.mpr ⟨c, hc, ?_⟩)))
    rw [escapeChar_high (Nat.not_lt.mp hlow)]
    exact List.mem_singleton_self c

mutual

/-- What every character of a text is, every character of the strings in it is. -/
theorem spelled_of_text (hplain : ∀ c < 0x7f, P c) : ∀ v : Json, (∀ c ∈ text R pad v, P c) → Spelled P v
  | .null, _ => trivial
  | .bool _, _ => trivial
  | .num _, _ => trivial
  | .str _, h => spelled_of_quote hplain h
  | .arr [], _ => trivial
  | .arr (v :: vs), h => by
      have hitems : ∀ c ∈ text R pad v ++ moreItems R pad vs, P c := fun c hc =>
        h c (List.mem_cons_of_mem _ hc)
      exact ⟨spelled_of_text hplain v (fun c hc => hitems c (List.mem_append_left _ hc)),
        spelledItems_of_text hplain vs (fun c hc => hitems c (List.mem_append_right _ hc))⟩
  | .obj [], _ => trivial
  | .obj ((k, v) :: ms), h => by
      have hmembers : ∀ c, c ∈ quote k ∨ c ∈ text R pad v ∨ c ∈ moreMembers R pad ms → P c := by
        intro c hc
        refine h c ?_
        simp only [text, textMembers, List.cons_append, List.append_assoc, List.mem_cons,
          List.mem_append]
        tauto
      exact ⟨spelled_of_quote hplain (fun c hc => hmembers c (.inl hc)),
        spelled_of_text hplain v (fun c hc => hmembers c (.inr (.inl hc))),
        spelledMembers_of_text hplain ms (fun c hc => hmembers c (.inr (.inr hc)))⟩

theorem spelledItems_of_text (hplain : ∀ c < 0x7f, P c) : ∀ vs : List Json, (∀ c ∈ moreItems R pad vs, P c) → SpelledItems P vs
  | [], _ => trivial
  | v :: vs, h => by
      have hitems : ∀ c, c ∈ text R pad v ∨ c ∈ moreItems R pad vs → P c := by
        intro c hc
        refine h c ?_
        simp only [moreItems, List.cons_append, List.append_assoc, List.mem_cons, List.mem_append]
        tauto
      exact ⟨spelled_of_text hplain v (fun c hc => hitems c (.inl hc)),
        spelledItems_of_text hplain vs (fun c hc => hitems c (.inr hc))⟩

theorem spelledMembers_of_text (hplain : ∀ c < 0x7f, P c) : ∀ ms : List (Str × Json),
    (∀ c ∈ moreMembers R pad ms, P c) → SpelledMembers P ms
  | [], _ => trivial
  | (k, v) :: ms, h => by
      have hmembers : ∀ c, c ∈ quote k ∨ c ∈ text R pad v ∨ c ∈ moreMembers R pad ms → P c := by
        intro c hc
        refine h c ?_
        simp only [moreMembers, List.cons_append, List.append_assoc, List.mem_cons, List.mem_append]
        tauto
      exact ⟨spelled_of_quote hplain (fun c hc => hmembers c (.inl hc)),
        spelled_of_text hplain v (fun c hc => hmembers c (.inr (.inl hc))),
        spelledMembers_of_text hplain ms (fun c hc => hmembers c (.inr (.inr hc)))⟩

end

end

/-! ## The order of members -/

section

variable {R : Numerals}

theorem fitsMembers_sort {room : Nat} (ms : List (Str × Json)) :
    fitsMembers R room ((sortedMembers ms).mergeSort (fun a b => decide (a.1 ≤ b.1))) =
      fitsMembers R room (sortedMembers ms) := by
  rw [Bool.eq_iff_iff, fitsMembers_iff, fitsMembers_iff]
  have hperm := List.mergeSort_perm (sortedMembers ms) (fun a b => decide (a.1 ≤ b.1))
  exact ⟨fun h m hm => h m (hperm.mem_iff.mpr hm), fun h m hm => h m (hperm.mem_iff.mp hm)⟩

mutual

theorem fits_sorted_eq : ∀ (v : Json) (room : Nat), fits R room (sorted v) = fits R room v
  | .null, _ => rfl
  | .bool _, _ => rfl
  | .num _, _ => rfl
  | .str _, _ => rfl
  | .arr _, 0 => rfl
  | .arr items, room + 1 => fitsItems_sorted_eq items room
  | .obj _, 0 => rfl
  | .obj ms, room + 1 => (fitsMembers_sort ms).trans (fitsMembers_sorted_eq ms room)

theorem fitsItems_sorted_eq : ∀ (vs : List Json) (room : Nat),
    fitsItems R room (sortedItems vs) = fitsItems R room vs
  | [], _ => rfl
  | v :: vs, room => by
      rw [sortedItems, fitsItems, fitsItems, fits_sorted_eq v room, fitsItems_sorted_eq vs room]

theorem fitsMembers_sorted_eq : ∀ (ms : List (Str × Json)) (room : Nat),
    fitsMembers R room (sortedMembers ms) = fitsMembers R room ms
  | [], _ => rfl
  | (_, v) :: ms, room => by
      rw [sortedMembers, fitsMembers, fitsMembers, fits_sorted_eq v room,
        fitsMembers_sorted_eq ms room]

end

end

section

variable {P : Nat → Prop}

theorem spelledMembers_sort (ms : List (Str × Json)) :
    SpelledMembers P ((sortedMembers ms).mergeSort (fun a b => decide (a.1 ≤ b.1))) ↔
      SpelledMembers P (sortedMembers ms) := by
  rw [spelledMembers_iff, spelledMembers_iff]
  have hperm := List.mergeSort_perm (sortedMembers ms) (fun a b => decide (a.1 ≤ b.1))
  exact ⟨fun h m hm => h m (hperm.mem_iff.mpr hm), fun h m hm => h m (hperm.mem_iff.mp hm)⟩

mutual

theorem spelled_sorted_iff : ∀ v : Json, Spelled P (sorted v) ↔ Spelled P v
  | .null => Iff.rfl
  | .bool _ => Iff.rfl
  | .num _ => Iff.rfl
  | .str _ => Iff.rfl
  | .arr items => spelledItems_sorted_iff items
  | .obj ms => (spelledMembers_sort ms).trans (spelledMembers_sorted_iff ms)

theorem spelledItems_sorted_iff : ∀ vs : List Json, SpelledItems P (sortedItems vs) ↔
    SpelledItems P vs
  | [] => Iff.rfl
  | v :: vs => and_congr (spelled_sorted_iff v) (spelledItems_sorted_iff vs)

theorem spelledMembers_sorted_iff : ∀ ms : List (Str × Json),
    SpelledMembers P (sortedMembers ms) ↔ SpelledMembers P ms
  | [] => Iff.rfl
  | (_, v) :: ms => and_congr Iff.rfl
      (and_congr (spelled_sorted_iff v) (spelledMembers_sorted_iff ms))

end

end

end Secdogie.Json
