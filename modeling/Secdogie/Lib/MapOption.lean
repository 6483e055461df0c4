/-
# `Secdogie.Lib.MapOption` — a map that may fail at any item

`List.mapM` in `Option` has a value just when its function has one at every
item, and the value is then the list of these.
-/
import Mathlib

namespace Secdogie

variable {α β : Type*} {f : α → Option β}

theorem mapM_eq_some_iff : ∀ {l : List α} {l' : List β},
    l.mapM f = some l' ↔ l.map f = l'.map some
  | [], l' => by
      rw [List.mapM_nil, List.map_nil, eq_comm (a := []), List.map_eq_nil_iff]
      exact ⟨fun h => (Option.some.inj h).symm, fun h => congrArg some h.symm⟩
  | a :: l, l' => by
      rw [List.mapM_cons]
      simp only [Option.bind_eq_bind, Option.bind_eq_some_iff, mapM_eq_some_iff, List.map_cons]
      constructor
      · rintro ⟨b, hb, l'', hl, heq⟩
        obtain rfl : b :: l'' = l' := Option.some.inj heq
        rw [List.map_cons, hb, hl]
      · intro h
        cases l' with
        | nil => exact nomatch h
        | cons b l'' =>
            rw [List.map_cons, List.cons.injEq] at h
            exact ⟨b, h.1, l'', h.2, rfl⟩

theorem exists_mapM_iff {l : List α} : (∃ l', l.mapM f = some l') ↔ ∀ a ∈ l, ∃ b, f a = some b := by
  simp only [mapM_eq_some_iff]
  induction l with
  | nil => exact ⟨fun _ a ha => absurd ha List.not_mem_nil, fun _ => ⟨[], rfl⟩⟩
  | cons a l ih =>
      rw [List.forall_mem_cons, ← ih]
      constructor
      · rintro ⟨l', h⟩
        cases l' with
        | nil => exact nomatch h
        | cons b l' =>
            rw [List.map_cons, List.map_cons, List.cons.injEq] at h
            exact ⟨⟨b, h.1⟩, l', h.2⟩
      · rintro ⟨⟨b, hb⟩, l', hl⟩
        exact ⟨b :: l', by rw [List.map_cons, List.map_cons, hb, hl]⟩

theorem mem_mapM {l : List α} {l' : List β} (h : l.mapM f = some l') {b : β} :
    b ∈ l' ↔ ∃ a ∈ l, f a = some b := by
  have hmem : some b ∈ l'.map some ↔ b ∈ l' := List.mem_map_of_injective (Option.some_injective β)
  rw [← hmem, ← mapM_eq_some_iff.mp h, List.mem_map]

/-- Items that are kept beside their keys. -/
theorem mapM_keyed {l : List α} {l' : List (β × α)}
    (h : l.mapM (fun a => (f a).map (fun k => (k, a))) = some l') :
    l'.map Prod.snd = l ∧ ∀ p ∈ l', f p.2 = some p.1 := by
  constructor
  · rw [mapM_eq_some_iff] at h
    induction l generalizing l' with
    | nil =>
        rw [List.map_nil, eq_comm, List.map_eq_nil_iff] at h
        rw [h, List.map_nil]
    | cons a l ih =>
        cases l' with
        | nil => exact nomatch h
        | cons p l' =>
            rw [List.map_cons, List.map_cons, List.cons.injEq, Option.map_eq_some_iff] at h
            obtain ⟨⟨k, -, rfl⟩, h⟩ := h
            rw [List.map_cons, ih h]
  · intro p hp
    obtain ⟨a, -, ha⟩ := (mem_mapM h).mp hp
    obtain ⟨k, hk, rfl⟩ := Option.map_eq_some_iff.mp ha
    exact hk

end Secdogie
