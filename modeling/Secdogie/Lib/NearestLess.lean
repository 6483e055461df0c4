/-
# `Secdogie.Lib.NearestLess` — the nearest one before that is less

One pass with a stack finds for each entry of a list the nearest entry before
it that is less: what is not less than a new entry is nearest to no later one,
and is dropped.
-/
import Mathlib

namespace Secdogie

variable {β : Type*} [LinearOrder β]

/-- From the place `i` on, with the entries on the stack before it. -/
def nearestLessFrom (i : ℕ) (stack : List (ℕ × β)) : List β → List (Option ℕ)
  | [] => []
  | b :: l =>
      let less := stack.dropWhile fun s => decide (b ≤ s.2)
      less.head?.map Prod.fst :: nearestLessFrom (i + 1) ((i, b) :: less) l

def nearestLess (l : List β) : List (Option ℕ) := nearestLessFrom 0 [] l

/-- The nearest entry before the place `i` that is less than `b`. -/
structure IsNearestLess (l : List β) (b : β) (i : ℕ) (r : Option ℕ) : Prop where
  less : ∀ a ∈ r, a < i ∧ ∃ c, l[a]? = some c ∧ c < b
  nearest : ∀ (j : ℕ) (c : β), j < i → (∀ a ∈ r, a < j) → l[j]? = some c → b ≤ c

theorem IsNearestLess.unique {l : List β} {b : β} {i : ℕ} {r r' : Option ℕ}
    (h : IsNearestLess l b i r) (h' : IsNearestLess l b i r') : r = r' := by
  have hnone : ∀ {r : Option ℕ} {a : ℕ}, IsNearestLess l b i none → IsNearestLess l b i r →
      a ∈ r → False := by
    intro r a hnone hsome ha
    obtain ⟨hlt, c, hc, hless⟩ := hsome.less a ha
    exact absurd (hnone.nearest a c hlt nofun hc) (not_le.mpr hless)
  have hle : ∀ {a a' : ℕ}, IsNearestLess l b i (some a) → IsNearestLess l b i (some a') → a' ≤ a := by
    intro a a' ha ha'
    by_contra hlt
    obtain ⟨hi, c, hc, hless⟩ := ha'.less a' rfl
    refine absurd (ha.nearest a' c hi (fun d hd => ?_) hc) (not_le.mpr hless)
    cases hd
    omega
  cases r with
  | none =>
      cases r' with
      | none => rfl
      | some a' => exact (hnone h h' rfl).elim
  | some a =>
      cases r' with
      | none => exact (hnone h' h rfl).elim
      | some a' => exact congrArg some (le_antisymm (hle h' h) (hle h h'))

/-- The stack after the entries `past`: from the last one down, each of `past` has on it one that
came no earlier and is no more. -/
structure Stacked (past : List β) (stack : List (ℕ × β)) : Prop where
  descending : stack.Pairwise fun s t => t.1 < s.1
  entries : ∀ s ∈ stack, past[s.1]? = some s.2
  covered : ∀ (j : ℕ) (c : β), past[j]? = some c → ∃ s ∈ stack, j ≤ s.1 ∧ s.2 ≤ c

/-- What is dropped is no less. -/
theorem mem_or_dropped {stack : List (ℕ × β)} {b : β} {s : ℕ × β} (h : s ∈ stack) :
    s ∈ stack.dropWhile (fun s => decide (b ≤ s.2)) ∨ b ≤ s.2 := by
  rw [← List.takeWhile_append_dropWhile (p := fun s => decide (b ≤ s.2)) (l := stack)] at h
  rcases List.mem_append.mp h with htake | hdrop
  · have hle := List.mem_takeWhile_imp htake
    exact .inr (of_decide_eq_true (p := b ≤ s.2) hle)
  · exact .inl hdrop

variable {past : List β} {stack : List (ℕ × β)}

theorem Stacked.nearest (h : Stacked past stack) (b : β) :
    IsNearestLess past b past.length
      ((stack.dropWhile fun s => decide (b ≤ s.2)).head?.map Prod.fst) := by
  cases hless : stack.dropWhile fun s => decide (b ≤ s.2) with
  | nil =>
      refine ⟨nofun, fun j c hj _ hc => ?_⟩
      obtain ⟨s, hs, -, hle⟩ := h.covered j c hc
      rcases mem_or_dropped (b := b) hs with hmem | hdropped
      · rw [hless] at hmem
        exact nomatch hmem
      · exact hdropped.trans hle
  | cons s rest =>
      have hmem : s ∈ stack := by
        refine (List.dropWhile_sublist (p := fun s => decide (b ≤ s.2))).subset ?_
        rw [hless]
        exact List.mem_cons_self
      have hs := h.entries s hmem
      have hlt : ¬ b ≤ s.2 := by
        have hhead := List.head?_dropWhile_not (fun s => decide (b ≤ s.2)) stack
        rw [hless] at hhead
        exact of_decide_eq_false (by simpa using hhead)
      refine ⟨fun a ha => ?_, fun j c _ hafter hc => ?_⟩
      · cases ha
        exact ⟨(List.getElem?_eq_some_iff.mp hs).1, s.2, hs, not_le.mp hlt⟩
      · obtain ⟨t, ht, hjt, hle⟩ := h.covered j c hc
        rcases mem_or_dropped (b := b) ht with hmem' | hdropped
        · -- what is left of the stack came before `s`
          have hpair : (s :: rest).Pairwise fun s t => t.1 < s.1 := by
            rw [← hless]
            exact h.descending.sublist (List.dropWhile_sublist _)
          have hsj := hafter s.1 rfl
          rw [hless] at hmem'
          rcases List.mem_cons.mp hmem' with rfl | hrest
          · omega
          · have := List.rel_of_pairwise_cons hpair hrest
            omega
        · exact hdropped.trans hle

theorem Stacked.push (h : Stacked past stack) (b : β) :
    Stacked (past ++ [b])
      ((past.length, b) :: stack.dropWhile fun s => decide (b ≤ s.2)) := by
  have hmem : ∀ s ∈ stack.dropWhile (fun s => decide (b ≤ s.2)), s ∈ stack :=
    fun s hs => (List.dropWhile_sublist _).subset hs
  have hbefore : ∀ s ∈ stack, s.1 < past.length :=
    fun s hs => (List.getElem?_eq_some_iff.mp (h.entries s hs)).1
  refine ⟨?_, ?_, ?_⟩
  · refine List.pairwise_cons.mpr ⟨fun s hs => hbefore s (hmem s hs), ?_⟩
    exact h.descending.sublist (List.dropWhile_sublist _)
  · intro s hs
    rcases List.mem_cons.mp hs with rfl | hs
    · exact List.getElem?_concat_length
    · rw [List.getElem?_append_left (hbefore s (hmem s hs))]
      exact h.entries s (hmem s hs)
  · intro j c hc
    by_cases hj : j < past.length
    · rw [List.getElem?_append_left hj] at hc
      obtain ⟨s, hs, hjs, hle⟩ := h.covered j c hc
      rcases mem_or_dropped (b := b) hs with hkept | hdropped
      · exact ⟨s, List.mem_cons_of_mem _ hkept, hjs, hle⟩
      · exact ⟨_, List.mem_cons_self, hj.le, hdropped.trans hle⟩
    · have hlt := (List.getElem?_eq_some_iff.mp hc).1
      rw [List.length_append, List.length_singleton] at hlt
      obtain rfl : j = past.length := by omega
      rw [List.getElem?_concat_length] at hc
      cases hc
      exact ⟨_, List.mem_cons_self, le_rfl, le_rfl⟩

/-- By induction on what is left of the list. -/
theorem nearestLessFrom_spec {l : List β} (h : Stacked past stack) {k : ℕ} {b : β}
    (hb : l[k]? = some b) :
    ∃ r, (nearestLessFrom past.length stack l)[k]? = some r ∧
      IsNearestLess (past ++ l) b (past.length + k) r := by
  induction l generalizing past stack k with
  | nil => exact nomatch hb
  | cons c l ih =>
      rw [nearestLessFrom]
      cases k with
      | zero =>
          cases hb
          obtain ⟨hless, hnearest⟩ := h.nearest b
          refine ⟨_, rfl, fun a ha => ?_, fun j d hj hafter hd => ?_⟩
          · obtain ⟨hlt, d, hd, hdc⟩ := hless a ha
            exact ⟨hlt, d, by rw [List.getElem?_append_left hlt]; exact hd, hdc⟩
          · rw [List.getElem?_append_left hj] at hd
            exact hnearest j d hj hafter hd
      | succ k =>
          have hpush := h.push c
          have hnext := ih hpush hb
          rw [List.length_append, List.length_singleton, List.append_assoc] at hnext
          obtain ⟨r, hr, hnearest⟩ := hnext
          refine ⟨r, hr, ?_⟩
          rw [Nat.add_right_comm] at hnearest
          exact hnearest

/-- **For each entry, the nearest one before it that is less.** -/
theorem nearestLess_spec {l : List β} {i : ℕ} {b : β} (hb : l[i]? = some b) :
    ∃ r, (nearestLess l)[i]? = some r ∧ IsNearestLess l b i r := by
  have hempty : Stacked ([] : List β) [] := ⟨List.Pairwise.nil, nofun, nofun⟩
  obtain ⟨r, hr, hnearest⟩ := nearestLessFrom_spec hempty hb
  rw [List.length_nil, Nat.zero_add] at hnearest
  exact ⟨r, hr, hnearest⟩

theorem length_nearestLessFrom (i : ℕ) (stack : List (ℕ × β)) (l : List β) :
    (nearestLessFrom i stack l).length = l.length := by
  induction l generalizing i stack with
  | nil => rfl
  | cons b l ih =>
      rw [nearestLessFrom, List.length_cons, List.length_cons, ih]

end Secdogie
