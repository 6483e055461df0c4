/-
# `Secdogie.Lib.OrderedDict` — dictionaries that iterate in insertion order

A dictionary is the list of its items, oldest first, with no key twice.
Assigning to a key that is there keeps its place; a key that is popped and
assigned again goes to the end.  The order does not count when two of them are
compared (`eq_iff`).
-/
import Mathlib

namespace Secdogie

structure OrderedDict (κ ν : Type*) where
  items : List (κ × ν)
  nodup : (items.map Prod.fst).Nodup

namespace OrderedDict

variable {κ ν : Type*} [DecidableEq κ]

/-- The item list of `d[k] = v`. -/
def assign (k : κ) (v : ν) : List (κ × ν) → List (κ × ν)
  | [] => [(k, v)]
  | (a, w) :: l => if a = k then (k, v) :: l else (a, w) :: assign k v l

theorem keys_assign (k : κ) (v : ν) : ∀ l : List (κ × ν),
    (assign k v l).map Prod.fst =
      if k ∈ l.map Prod.fst then l.map Prod.fst else l.map Prod.fst ++ [k]
  | [] => by simp [assign]
  | (a, w) :: l => by
      have ih := keys_assign k v l
      by_cases h : a = k
      · simp [assign, h]
      · rw [assign, if_neg h, List.map_cons, ih]
        by_cases hk : k ∈ l.map Prod.fst
        · simp only [hk, if_true, List.map_cons, List.mem_cons, or_true]
        · simp only [hk, if_false, List.map_cons, List.mem_cons, or_false, Ne.symm h,
            List.cons_append]

theorem nodup_assign (k : κ) (v : ν) {l : List (κ × ν)} (h : (l.map Prod.fst).Nodup) :
    ((assign k v l).map Prod.fst).Nodup := by
  rw [keys_assign]
  split_ifs with hk
  · exact h
  · exact List.nodup_append.mpr ⟨h, List.nodup_singleton k, fun a ha b hb heq => by
      rw [List.mem_singleton] at hb
      exact hk (hb ▸ heq ▸ ha)⟩

def empty : OrderedDict κ ν := ⟨[], List.nodup_nil⟩

/-- `d.get(k)` -/
def get (d : OrderedDict κ ν) (k : κ) : Option ν := (d.items.find? (fun e => e.1 = k)).map Prod.snd

/-- `d[k] = v` -/
def set (d : OrderedDict κ ν) (k : κ) (v : ν) : OrderedDict κ ν :=
  ⟨assign k v d.items, nodup_assign k v d.nodup⟩

/-- `d.pop(k, None)`, without its value -/
def pop (d : OrderedDict κ ν) (k : κ) : OrderedDict κ ν :=
  ⟨d.items.filter (fun e => e.1 ≠ k), d.nodup.sublist (List.filter_sublist.map _)⟩

/-- `{k: v for k, v in d.items() if p(k, v)}` -/
def filter (d : OrderedDict κ ν) (p : κ → ν → Bool) : OrderedDict κ ν :=
  ⟨d.items.filter (fun e => p e.1 e.2), d.nodup.sublist (List.filter_sublist.map _)⟩

/-- `{k: f(k, v) for k, v in d.items()}` -/
def mapValues (d : OrderedDict κ ν) (f : κ → ν → ν) : OrderedDict κ ν :=
  ⟨d.items.map (fun e => (e.1, f e.1 e.2)), by rw [List.map_map]; exact d.nodup⟩

def keys (d : OrderedDict κ ν) : List κ := d.items.map Prod.fst

def values (d : OrderedDict κ ν) : List ν := d.items.map Prod.snd

variable {d : OrderedDict κ ν} {k a : κ} {v : ν}

omit [DecidableEq κ] in
theorem nodup_keys (d : OrderedDict κ ν) : d.keys.Nodup := d.nodup

theorem find?_assign (k a : κ) (v : ν) : ∀ l : List (κ × ν),
    ((assign k v l).find? (fun e => e.1 = a)).map Prod.snd =
      if a = k then some v else (l.find? (fun e => e.1 = a)).map Prod.snd
  | [] => by
      by_cases h : a = k
      · simp [assign, h]
      · simp [assign, h, Ne.symm h]
  | (b, w) :: l => by
      have ih := find?_assign k a v l
      by_cases hb : b = k
      · subst hb
        by_cases h : a = b
        · simp [assign, h]
        · simp [assign, h, Ne.symm h]
      · rw [assign, if_neg hb]
        by_cases hba : b = a
        · subst hba
          simp [hb]
        · simp only [List.find?_cons, hba, decide_false]
          exact ih

@[simp] theorem get_empty : (empty : OrderedDict κ ν).get a = none := rfl

@[simp] theorem get_set : (d.set k v).get a = if a = k then some v else d.get a :=
  find?_assign k a v d.items

@[simp] theorem get_pop : (d.pop k).get a = if a = k then none else d.get a := by
  rw [get, pop, List.find?_filter]
  by_cases h : a = k
  · subst h
    rw [if_pos rfl, List.find?_eq_none.mpr]
    · rfl
    · intro e _
      simp
  · rw [if_neg h, get]
    congr 2
    funext e
    by_cases he : e.1 = a
    · simp [he, h]
    · simp [he]

theorem get_eq_some_iff : d.get k = some v ↔ (k, v) ∈ d.items := by
  rw [get, Option.map_eq_some_iff]
  constructor
  · rintro ⟨e, he, rfl⟩
    have hk := List.find?_some he
    rw [decide_eq_true_iff] at hk
    exact hk ▸ List.mem_of_find?_eq_some he
  · intro hmem
    cases hf : d.items.find? (fun e => e.1 = k) with
    | none => exact absurd (List.find?_eq_none.mp hf _ hmem) (by simp)
    | some e =>
        have hk := List.find?_some hf
        rw [decide_eq_true_iff] at hk
        have he := List.mem_of_find?_eq_some hf
        have heq : e = (k, v) := List.inj_on_of_nodup_map d.nodup he hmem hk
        exact ⟨e, rfl, by rw [heq]⟩

theorem get_filter_eq_some_iff {p : κ → ν → Bool} :
    (d.filter p).get k = some v ↔ d.get k = some v ∧ p k v = true := by
  rw [get_eq_some_iff, get_eq_some_iff, filter, List.mem_filter]

theorem get_mapValues {f : κ → ν → ν} : (d.mapValues f).get k = (d.get k).map (f k) := by
  rw [get, get, mapValues, List.find?_map, Option.map_map, Option.map_map]
  change ((d.items.find? fun e => e.1 = k).map fun e => f e.1 e.2) = _
  cases hfind : d.items.find? fun e => e.1 = k with
  | none => rfl
  | some e =>
      have hkey : e.1 = k := by simpa using List.find?_some hfind
      rw [Option.map_some, Option.map_some, Function.comp_apply, hkey]

theorem mem_keys : k ∈ d.keys ↔ ∃ v, d.get k = some v := by
  simp [keys, get_eq_some_iff]

theorem mem_values : v ∈ d.values ↔ ∃ k, d.get k = some v := by
  simp [values, get_eq_some_iff]

theorem get_eq_none_iff : d.get k = none ↔ k ∉ d.keys := by
  rw [mem_keys]
  cases d.get k <;> simp

theorem keys_set : (d.set k v).keys = if k ∈ d.keys then d.keys else d.keys ++ [k] :=
  keys_assign k v d.items

theorem assign_new : ∀ {l : List (κ × ν)}, k ∉ l.map Prod.fst → assign k v l = l ++ [(k, v)]
  | [], _ => rfl
  | (a, w) :: l, h => by
      have hne : ¬ a = k := fun heq => h (heq ▸ List.mem_cons_self)
      have hl : k ∉ l.map Prod.fst := fun hmem => h (List.mem_cons_of_mem a hmem)
      rw [assign, if_neg hne, assign_new hl, List.cons_append]

/-- A new key goes to the end. -/
theorem items_set_new (h : k ∉ d.keys) : (d.set k v).items = d.items ++ [(k, v)] := assign_new h

/-! ## Sizes -/

theorem length_set : (d.set k v).items.length =
    if d.get k = none then d.items.length + 1 else d.items.length := by
  have hkeys := congrArg List.length (keys_assign k v d.items)
  rw [List.length_map] at hkeys
  change (assign k v d.items).length = _
  rw [hkeys]
  by_cases hk : k ∈ d.keys
  · obtain ⟨w, hw⟩ := mem_keys.mp hk
    rw [if_pos (show k ∈ d.items.map Prod.fst from hk), List.length_map, hw, if_neg (fun h => nomatch h)]
  · rw [if_neg (show k ∉ d.items.map Prod.fst from hk), List.length_append, List.length_map,
      if_pos (get_eq_none_iff.mpr hk)]
    rfl

theorem length_pop_lt (h : k ∈ d.keys) : (d.pop k).items.length < d.items.length := by
  obtain ⟨v, hv⟩ := mem_keys.mp h
  rw [pop, List.length_filter_lt_length_iff_exists]
  exact ⟨(k, v), get_eq_some_iff.mp hv, by simp⟩

theorem length_pop_le : (d.pop k).items.length ≤ d.items.length := List.length_filter_le ..

omit [DecidableEq κ] in
theorem length_filter_le {p : κ → ν → Bool} : (d.filter p).items.length ≤ d.items.length :=
  List.length_filter_le ..

/-- `==` on dictionaries, which compares the items in any order -/
def eq [DecidableEq ν] (d d' : OrderedDict κ ν) : Bool :=
  d.keys.all (fun k => d.get k = d'.get k) && d'.keys.all (fun k => d.get k = d'.get k)

theorem eq_iff [DecidableEq ν] {d d' : OrderedDict κ ν} :
    d.eq d' = true ↔ ∀ k, d.get k = d'.get k := by
  simp only [eq, Bool.and_eq_true, List.all_eq_true, decide_eq_true_iff]
  refine ⟨fun h k => ?_, fun h => ⟨fun k _ => h k, fun k _ => h k⟩⟩
  by_cases hd : k ∈ d.keys
  · exact h.1 k hd
  · by_cases hd' : k ∈ d'.keys
    · exact h.2 k hd'
    · rw [get_eq_none_iff.mpr hd, get_eq_none_iff.mpr hd']

end OrderedDict

end Secdogie
