/-
# `Secdogie.Lib.StrMap` — ordered maps and sets keyed by strings

The ordered maps and sets of the modelled programs.  Both are extensional,
and iterate in key order.  The lemmas here are those of the standard library
with the comparison spelled out as equality of keys, so that `simp` can use
them as they are.
-/
import Mathlib

namespace Secdogie

abbrev StrMap (V : Type) := Std.ExtTreeMap String V compare

abbrev StrSet := Std.ExtTreeSet String compare

namespace StrMap

variable {V : Type} {m : StrMap V} {k a : String} {v : V}

@[simp] theorem get_empty : (∅ : StrMap V)[a]? = none :=
  Std.ExtTreeMap.getElem?_empty

@[simp] theorem get_insert : (m.insert k v)[a]? = if k = a then some v else m[a]? := by
  simp [Std.ExtTreeMap.getElem?_insert]

@[simp] theorem get_erase : (m.erase k)[a]? = if k = a then none else m[a]? := by
  simp [Std.ExtTreeMap.getElem?_erase]

theorem mem_iff_get : a ∈ m ↔ ∃ v, m[a]? = some v := by
  rw [Std.ExtTreeMap.mem_iff_isSome_getElem?, Option.isSome_iff_exists]

theorem not_mem_iff_get : a ∉ m ↔ m[a]? = none := by
  rw [mem_iff_get]
  cases m[a]? <;> simp

@[simp] theorem contains_eq : m.contains a = decide (a ∈ m) := by
  rw [Bool.eq_iff_iff, Std.ExtTreeMap.contains_iff_mem, decide_eq_true_iff]

theorem mem_of_get (h : m[a]? = some v) : a ∈ m := mem_iff_get.mpr ⟨v, h⟩

@[simp] theorem mem_insert : a ∈ m.insert k v ↔ k = a ∨ a ∈ m := by
  simp [Std.ExtTreeMap.mem_insert]

@[simp] theorem mem_erase : a ∈ m.erase k ↔ k ≠ a ∧ a ∈ m := by
  simp [Std.ExtTreeMap.mem_erase]

theorem size_insert_new (h : k ∉ m) : (m.insert k v).size = m.size + 1 := by
  simp [Std.ExtTreeMap.size_insert, h]

theorem size_erase_mem (h : k ∈ m) : (m.erase k).size + 1 = m.size := by
  have hpos : m.size ≠ 0 := by
    rw [← Std.ExtTreeMap.length_keys]
    exact fun h0 => List.not_mem_nil
      (List.eq_nil_of_length_eq_zero h0 ▸ Std.ExtTreeMap.mem_keys.mpr h)
  rw [Std.ExtTreeMap.size_erase, if_pos (Std.ExtTreeMap.contains_iff_mem.mpr h)]
  omega

/-- A map whose keys all lie in a finite set is no larger than it. -/
theorem size_le_card {S : Finset String} (h : ∀ a ∈ m, a ∈ S) : m.size ≤ S.card := by
  rw [← Std.ExtTreeMap.length_keys]
  have hnd : m.keys.Nodup := Std.ExtTreeMap.distinct_keys.imp (fun h heq => h (by simp [heq]))
  rw [← List.toFinset_card_of_nodup hnd]
  refine Finset.card_le_card (fun a ha => h a ?_)
  exact Std.ExtTreeMap.mem_keys.mp (List.mem_toFinset.mp ha)

theorem ext {m m' : StrMap V} (h : ∀ a : String, m[a]? = m'[a]?) : m = m' :=
  Std.ExtTreeMap.ext_getElem? (fun a => h a)

end StrMap

namespace StrSet

variable {s : StrSet} {k a : String}

@[simp] theorem mem_insert : a ∈ s.insert k ↔ k = a ∨ a ∈ s := by
  simp [Std.ExtTreeSet.mem_insert]

@[simp] theorem mem_erase : a ∈ s.erase k ↔ k ≠ a ∧ a ∈ s := by
  simp [Std.ExtTreeSet.mem_erase]

@[simp] theorem contains_eq : s.contains a = decide (a ∈ s) := by
  rw [Bool.eq_iff_iff, Std.ExtTreeSet.contains_iff_mem, decide_eq_true_iff]

theorem nodup_toList : s.toList.Nodup :=
  Std.ExtTreeSet.distinct_toList.imp (fun h heq => h (by simp [heq]))

theorem ext {s s' : StrSet} (h : ∀ a, a ∈ s ↔ a ∈ s') : s = s' := Std.ExtTreeSet.ext_mem h

end StrSet

end Secdogie
