/-
# `Secdogie.Lib.FirstPer` — the first element of each key

Collecting into a dictionary that keeps the first value of a key elects one
element for each key.  Every election comes from some order of the list, and
every order that starts with an election elects it.
-/
import Mathlib

namespace Secdogie

section

variable {α κ : Type} [DecidableEq κ] (key : α → κ)

/-- Keeps `x` unless its key is taken. -/
def keepFirst (kept : List α) (x : α) : List α :=
  if key x ∈ kept.map key then kept else kept ++ [x]

/-- The first element of each key, in order. -/
def firstPer (l : List α) : List α := l.foldl (keepFirst key) []

/-- One element of the list for each key of it. -/
structure Elected (l v : List α) : Prop where
  nodup : (v.map key).Nodup
  subset : ∀ x ∈ v, x ∈ l
  all : ∀ x ∈ l, key x ∈ v.map key

end

section

variable {α κ : Type} [DecidableEq κ] {key : α → κ}

variable (key) in
theorem foldl_keepFirst (l : List α) : ∀ kept : List α, (kept.map key).Nodup →
    ((l.foldl (keepFirst key) kept).map key).Nodup ∧
      (∀ x ∈ l.foldl (keepFirst key) kept, x ∈ kept ∨ x ∈ l) ∧
      (∀ x, x ∈ kept ∨ x ∈ l → key x ∈ (l.foldl (keepFirst key) kept).map key) := by
  induction l with
  | nil =>
      intro kept hkept
      refine ⟨hkept, fun x hx => .inl hx, fun x hx => ?_⟩
      exact List.mem_map_of_mem (hx.resolve_right List.not_mem_nil)
  | cons y l ih =>
      intro kept hkept
      rw [List.foldl_cons]
      by_cases hy : key y ∈ kept.map key
      · rw [keepFirst, if_pos hy]
        obtain ⟨hnodup, hsub, hall⟩ := ih kept hkept
        refine ⟨hnodup, fun x hx => (hsub x hx).imp_right (List.mem_cons_of_mem _), fun x hx => ?_⟩
        rcases hx with hx | hx
        · exact hall x (.inl hx)
        · rcases List.mem_cons.mp hx with rfl | hx
          · obtain ⟨z, hz, hkey⟩ := List.mem_map.mp hy
            rw [← hkey]
            exact hall z (.inl hz)
          · exact hall x (.inr hx)
      · rw [keepFirst, if_neg hy]
        have hkept' : ((kept ++ [y]).map key).Nodup := by
          rw [List.map_append, List.nodup_append]
          refine ⟨hkept, List.nodup_singleton _, fun a ha b hb heq => hy ?_⟩
          rw [List.map_singleton, List.mem_singleton] at hb
          rwa [heq, hb] at ha
        obtain ⟨hnodup, hsub, hall⟩ := ih (kept ++ [y]) hkept'
        refine ⟨hnodup, fun x hx => ?_, fun x hx => hall x ?_⟩
        · rcases hsub x hx with h | h
          · rcases List.mem_append.mp h with h | h
            · exact .inl h
            · exact .inr (List.mem_singleton.mp h ▸ List.mem_cons_self)
          · exact .inr (List.mem_cons_of_mem _ h)
        · rcases hx with hx | hx
          · exact .inl (List.mem_append_left _ hx)
          · rcases List.mem_cons.mp hx with rfl | hx
            · exact .inl (by simp)
            · exact .inr hx

theorem elected_firstPer (l : List α) : Elected key l (firstPer key l) := by
  obtain ⟨hnodup, hsub, hall⟩ := foldl_keepFirst key l [] List.nodup_nil
  exact ⟨hnodup, fun x hx => (hsub x hx).resolve_left List.not_mem_nil, fun x hx => hall x (.inr hx)⟩

theorem foldl_keepFirst_nodup {v : List α} : ∀ kept : List α, ((kept ++ v).map key).Nodup →
    v.foldl (keepFirst key) kept = kept ++ v := by
  induction v with
  | nil => intro kept _; simp
  | cons x v ih =>
      intro kept hnodup
      have hx : key x ∉ kept.map key := by
        rw [List.map_append, List.nodup_append] at hnodup
        exact fun h => hnodup.2.2 _ h _ (by simp) rfl
      rw [List.foldl_cons, keepFirst, if_neg hx, ih _ (by simpa using hnodup)]
      simp

theorem foldl_keepFirst_taken {kept : List α} : ∀ {l : List α}, (∀ x ∈ l, key x ∈ kept.map key) →
    l.foldl (keepFirst key) kept = kept := by
  intro l
  induction l with
  | nil => exact fun _ => rfl
  | cons x l ih =>
      intro h
      rw [List.foldl_cons, keepFirst, if_pos (h x List.mem_cons_self)]
      exact ih fun y hy => h y (List.mem_cons_of_mem _ hy)

/-- An election is what some order of the list elects. -/
theorem exists_perm_firstPer {l v : List α} (h : Elected key l v) :
    ∃ l', l'.Perm l ∧ firstPer key l' = v := by
  classical
  have hsub : v.Subperm l := (h.nodup.of_map key).subperm h.subset
  obtain ⟨v', hv', hsub⟩ := hsub
  obtain ⟨rest, hrest⟩ := hsub.exists_perm_append
  have hrest : l.Perm (v ++ rest) := hrest.trans (hv'.append_right rest)
  refine ⟨v ++ rest, hrest.symm, ?_⟩
  rw [firstPer, List.foldl_append, foldl_keepFirst_nodup [] (by simpa using h.nodup), List.nil_append]
  exact foldl_keepFirst_taken fun x hx => h.all x (hrest.mem_iff.mpr (List.mem_append_right _ hx))

omit [DecidableEq κ] in
theorem Elected.congr {l l' v v' : List α} (h : Elected key l v) (hl : l.Perm l') (hv : v.Perm v') :
    Elected key l' v' where
  nodup := (hv.map key).nodup_iff.mp h.nodup
  subset x hx := hl.mem_iff.mp (h.subset x (hv.mem_iff.mpr hx))
  all x hx := (hv.map key).mem_iff.mp (h.all x (hl.mem_iff.mpr hx))

omit [DecidableEq κ] in
/-- All elections elect as many. -/
theorem Elected.length_eq {l v v' : List α} (h : Elected key l v) (h' : Elected key l v') :
    v.length = v'.length := by
  have hsub : ∀ {v v'}, Elected key l v → Elected key l v' → v.length ≤ v'.length := by
    intro v v' h h'
    have hsub : (v.map key).Subperm (v'.map key) := h.nodup.subperm fun k hk => by
      obtain ⟨x, hx, rfl⟩ := List.mem_map.mp hk
      exact h'.all x (h.subset x hx)
    simpa using hsub.length_le
  exact le_antisymm (hsub h h') (hsub h' h)

/-- A permutation of what a list maps to comes from a permutation of the list. -/
theorem exists_perm_filterMap {β : Type} (f : α → Option β) {l : List α} {m : List β}
    (h : (l.filterMap f).Perm m) : ∃ l' : List α, l'.Perm l ∧ l'.filterMap f = m := by
  induction m generalizing l with
  | nil => exact ⟨l, List.Perm.refl l, List.perm_nil.mp h⟩
  | cons b m ih =>
      have hb : b ∈ l.filterMap f := h.mem_iff.mpr List.mem_cons_self
      obtain ⟨a, ha, hab⟩ := List.mem_filterMap.mp hb
      obtain ⟨pre, post, rfl⟩ := List.append_of_mem ha
      have hperm : (pre ++ a :: post).Perm (a :: (pre ++ post)) := List.perm_middle
      have hrest : ((pre ++ post).filterMap f).Perm m := by
        have h1 := (hperm.filterMap f).symm.trans h
        rw [List.filterMap_cons_some hab] at h1
        exact h1.cons_inv
      obtain ⟨l', hl', hm⟩ := ih hrest
      exact ⟨a :: l', (hl'.cons a).trans hperm.symm, by rw [List.filterMap_cons_some hab, hm]⟩

end

end Secdogie
