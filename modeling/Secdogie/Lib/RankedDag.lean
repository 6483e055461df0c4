/-
# `Secdogie.Lib.RankedDag` — what a set of ranked, linked items settles to

Items carry links to other items and claim a rank, which has to be one more
than the greatest rank among the items linked to.  Given a set of offered
items (`offer i d`: under the name `i` the item `d` is offered),
`Grounded` is what can be taken from it bottom up: an item all of whose
links are grounded and whose rank is right.

A process that takes items in some order ends with a partial map of names to
items.  If that map is sound (a taken item is offered, its links are taken
and its rank is right) and complete (an offered item whose links are taken
and whose rank is right is taken), then it is `Grounded`
(`Settled.iff_grounded`); so any two such processes agree, whatever the
order.  An item of wrong rank, and whatever rests on one, is `Spoiled` and
in none of them.
-/
import Mathlib

namespace Secdogie.RankedDag

variable {ι δ : Type*}

section

variable (links : δ → Finset ι) (rank : δ → ℕ)

/-- What can be taken bottom up from the items on offer; `f` gives the items
behind the links. -/
inductive Grounded (offer : ι → δ → Prop) : ι → δ → Prop
  | intro {i : ι} {d : δ} (f : ι → δ) : offer i d → (∀ j ∈ links d, Grounded offer j (f j)) →
      rank d = 1 + (links d).sup (fun j => rank (f j)) → Grounded offer i d

/-- The names of wrong rank, whichever offered items stand behind their
links, and those that rest on one. -/
inductive Spoiled (offer : ι → δ → Prop) : ι → Prop
  | rank {i : ι} {d : δ} : offer i d → (∀ f : ι → δ, (∀ j ∈ links d, offer j (f j)) →
      rank d ≠ 1 + (links d).sup (fun j => rank (f j))) → Spoiled offer i
  | link {i j : ι} {d : δ} : offer i d → j ∈ links d → Spoiled offer j → Spoiled offer i

/-- What a process has taken when nothing is left that it could take. -/
structure Settled (offer : ι → δ → Prop) (taken : ι → Option δ) : Prop where
  offered : ∀ i d, taken i = some d → offer i d
  linked : ∀ i d, taken i = some d → ∀ j ∈ links d, ∃ e, taken j = some e
  ranked : ∀ i d, taken i = some d → ∀ f : ι → δ, (∀ j ∈ links d, taken j = some (f j)) →
    rank d = 1 + (links d).sup (fun j => rank (f j))
  complete : ∀ i d (f : ι → δ), offer i d → (∀ j ∈ links d, taken j = some (f j)) →
    rank d = 1 + (links d).sup (fun j => rank (f j)) → taken i = some d

end

variable {links : δ → Finset ι} {rank : δ → ℕ} {offer : ι → δ → Prop} {taken taken' : ι → Option δ}

theorem Grounded.offered {i : ι} {d : δ} (h : Grounded links rank offer i d) : offer i d := by
  cases h with
  | intro f ho _ _ => exact ho

/-- A link goes to a smaller rank. -/
theorem rank_lt_of_sup {d : δ} {f : ι → δ} {j : ι} (hj : j ∈ links d)
    (h : rank d = 1 + (links d).sup (fun j => rank (f j))) : rank (f j) < rank d := by
  have hle : rank (f j) ≤ (links d).sup (fun j => rank (f j)) :=
    Finset.le_sup (f := fun j => rank (f j)) hj
  omega

/-- The items behind the links of a taken item. -/
theorem Settled.choose_links (h : Settled links rank offer taken) {i : ι} {d : δ}
    (hd : taken i = some d) : ∃ f : ι → δ, ∀ j ∈ links d, taken j = some (f j) := by
  classical
  refine ⟨fun j => (taken j).getD d, fun j hj => ?_⟩
  obtain ⟨e, he⟩ := h.linked i d hd j hj
  simp [he]

/-- What was taken is grounded: by induction on the rank, which every link
lowers. -/
theorem Settled.grounded (h : Settled links rank offer taken) : ∀ (n : ℕ) {i : ι} {d : δ},
    rank d ≤ n → taken i = some d → Grounded links rank offer i d := by
  intro n
  induction n with
  | zero =>
      intro i d hn hd
      obtain ⟨f, hf⟩ := h.choose_links hd
      have := h.ranked i d hd f hf
      omega
  | succ n ih =>
      intro i d hn hd
      obtain ⟨f, hf⟩ := h.choose_links hd
      have hrank := h.ranked i d hd f hf
      refine .intro f (h.offered i d hd) (fun j hj => ih ?_ (hf j hj)) hrank
      have := rank_lt_of_sup hj hrank
      omega

theorem Settled.iff_grounded (h : Settled links rank offer taken) {i : ι} {d : δ} :
    taken i = some d ↔ Grounded links rank offer i d := by
  refine ⟨fun hd => h.grounded (rank d) le_rfl hd, fun hg => ?_⟩
  induction hg with
  | intro f ho _ hrank ih => exact h.complete _ _ f ho ih hrank

/-- Two processes that settle on the same offers took the same. -/
theorem Settled.unique (h : Settled links rank offer taken)
    (h' : Settled links rank offer taken') : taken = taken' :=
  funext (fun _ => Option.ext (fun _ => h.iff_grounded.trans h'.iff_grounded.symm))

/-- Nothing grounded is spoiled, when a name offers one item only. -/
theorem Grounded.not_spoiled (huniq : ∀ i d d', offer i d → offer i d' → d = d') {i : ι} {d : δ}
    (h : Grounded links rank offer i d) : ¬ Spoiled links rank offer i := by
  induction h with
  | intro f ho hlinks hrank ih =>
      intro hs
      cases hs with
      | rank ho' hbad =>
          obtain rfl := huniq _ _ _ ho ho'
          exact hbad f (fun j hj => (hlinks j hj).offered) hrank
      | link ho' hj hs =>
          obtain rfl := huniq _ _ _ ho ho'
          exact ih _ hj hs

end Secdogie.RankedDag
