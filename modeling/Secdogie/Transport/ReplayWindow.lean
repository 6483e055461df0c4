/-
# `Secdogie.Transport.ReplayWindow` — a counter is accepted once

A sliding window over the counters of one peer: the highest accepted, and a
bitmap of the `size` counters below it.  What the window is for is `Closed`,
the counters it will not accept any more: accepting closes a counter, and
nothing opens one again (`closed_accept`).
-/
import Secdogie.Lib.SlidingWindow

namespace Secdogie.Transport

def REPLAY_WINDOW : Nat := 1024

structure ReplayWindow where
  size : Nat := REPLAY_WINDOW
  highest : Option Nat := none
  /-- bit `i` is set if `highest - i` has been seen -/
  bits : Nat := 0

namespace ReplayWindow

/-- Whether the counter is new and inside the window; if so it is recorded. -/
def accept (w : ReplayWindow) (ctr : Nat) : Bool × ReplayWindow :=
  match w.highest with
  | none => (true, { w with highest := some ctr, bits := 1 })
  | some highest =>
      if highest < ctr then
        let shift := ctr - highest
        let bits := if shift < w.size then ((w.bits <<< shift) ||| 1) &&& (2 ^ w.size - 1) else 1
        (true, { w with highest := some ctr, bits })
      else
        let diff := highest - ctr
        if w.size ≤ diff ∨ w.bits.testBit diff then (false, w)
        else (true, { w with bits := w.bits ||| (1 <<< diff) })

/-- The window does not accept the counter any more. -/
def Closed (w : ReplayWindow) (ctr : Nat) : Prop :=
  ∃ highest, w.highest = some highest ∧ ctr ≤ highest ∧
    (w.size ≤ highest - ctr ∨ w.bits.testBit (highest - ctr) = true)

theorem not_closed_of_accept {w : ReplayWindow} {ctr : Nat} (h : (w.accept ctr).1 = true) :
    ¬ w.Closed ctr := by
  rintro ⟨highest, hhighest, hle, hclosed⟩
  rw [accept, hhighest] at h
  dsimp only at h
  rw [if_neg (not_lt.mpr hle), if_pos hclosed] at h
  cases h

theorem closed_of_not_accept {w : ReplayWindow} {ctr : Nat} (h : (w.accept ctr).1 = false) :
    w.Closed ctr := by
  rw [accept] at h
  cases hhighest : w.highest with
  | none => rw [hhighest] at h; cases h
  | some highest =>
      rw [hhighest] at h
      dsimp only at h
      split_ifs at h with hlt hclosed
      exact ⟨highest, hhighest, not_lt.mp hlt, hclosed⟩

/-- A rejected counter changes nothing. -/
theorem accept_false {w : ReplayWindow} {ctr : Nat} (h : (w.accept ctr).1 = false) :
    (w.accept ctr).2 = w := by
  rw [accept] at h ⊢
  cases hhighest : w.highest with
  | none => rw [hhighest] at h; cases h
  | some highest =>
      rw [hhighest] at h
      dsimp only at h ⊢
      split_ifs at h ⊢
      rfl

/-- An accepted counter is closed, and so is all that was. -/
theorem closed_accept {w : ReplayWindow} {ctr : Nat} (h : (w.accept ctr).1 = true) (d : Nat)
    (hd : d = ctr ∨ w.Closed d) : (w.accept ctr).2.Closed d := by
  rw [accept] at h ⊢
  cases hhighest : w.highest with
  | none =>
      rw [hhighest] at h
      rcases hd with rfl | ⟨highest, hsome, -⟩
      · exact ⟨d, rfl, le_rfl, .inr (by simp)⟩
      · rw [hhighest] at hsome
        cases hsome
  | some highest =>
      rw [hhighest] at h
      dsimp only at h ⊢
      split_ifs at h ⊢ with hlt hshift hclosed
      · refine ⟨ctr, rfl, ?_, ?_⟩
        · rcases hd with rfl | ⟨highest', hsome, hle, -⟩
          · exact le_rfl
          · obtain rfl := Option.some.inj (hhighest.symm.trans hsome)
            omega
        · -- inside the new window the old bits have moved up by the shift
          by_cases hsize : w.size ≤ ctr - d
          · exact .inl hsize
          · refine .inr ?_
            rw [Nat.testBit_and, Nat.testBit_or, Nat.testBit_shiftLeft, Nat.testBit_two_pow_sub_one]
            rcases hd with rfl | ⟨highest', hsome, hle, hold⟩
            · simp; omega
            · obtain rfl := Option.some.inj (hhighest.symm.trans hsome)
              have hdiff : ctr - d - (ctr - highest) = highest - d := by omega
              have hbit : w.bits.testBit (highest - d) = true := hold.resolve_left (by omega)
              rw [hdiff, hbit]
              simp; omega
      · refine ⟨ctr, rfl, ?_, ?_⟩
        · rcases hd with rfl | ⟨highest', hsome, hle, -⟩
          · exact le_rfl
          · obtain rfl := Option.some.inj (hhighest.symm.trans hsome)
            omega
        · rcases hd with rfl | ⟨highest', hsome, hle, -⟩
          · exact .inr (by simp)
          · obtain rfl := Option.some.inj (hhighest.symm.trans hsome)
            exact .inl (show w.size ≤ ctr - d by omega)
      · refine ⟨highest, rfl, ?_, ?_⟩
        · rcases hd with rfl | ⟨highest', hsome, hle, -⟩
          · omega
          · obtain rfl := Option.some.inj (hhighest.symm.trans hsome)
            exact hle
        · dsimp only
          rw [Nat.testBit_or, Nat.testBit_shiftLeft]
          rcases hd with rfl | ⟨highest', hsome, hle, hold⟩
          · exact .inr (by simp)
          · obtain rfl := Option.some.inj (hhighest.symm.trans hsome)
            rcases hold with hold | hold
            · exact .inl hold
            · exact .inr (by simp [hold])

/-- The counter that raises the highest is above every closed one. -/
theorem lt_of_closed {w : ReplayWindow} {ctr d : Nat} (hd : w.Closed d)
    (hnewest : ∀ highest, w.highest = some highest → highest < ctr) : d < ctr := by
  obtain ⟨highest, hhighest, hle, -⟩ := hd
  exact hle.trans_lt (hnewest highest hhighest)

/-! ## The window as a set -/

open SlidingWindow

/-- What was accepted, as the window shows it. -/
abbrev Shows (w : ReplayWindow) (accepted : Finset Nat) : Prop :=
  SlidingWindow.Shows w.size w.highest w.bits.testBit accepted

theorem testBit_one_iff {i : Nat} : Nat.testBit 1 i = true ↔ i = 0 := by
  cases i with
  | zero => simp
  | succ i => simp [Nat.testBit_succ]

variable {w : ReplayWindow} {accepted : Finset Nat} {ctr : Nat}

theorem accept_iff (h : w.Shows accepted) : (w.accept ctr).1 = true ↔ Admits w.size accepted ctr := by
  rw [accept]
  cases hhighest : w.highest with
  | none => exact iff_of_true rfl (h.admits_first hhighest ctr)
  | some highest =>
      dsimp only
      by_cases hlt : highest < ctr
      · rw [if_pos hlt]
        exact iff_of_true rfl (h.admits_above hhighest hlt)
      rw [if_neg hlt]
      split_ifs with hclosed
      · refine iff_of_false (fun h => nomatch h) fun hadmits => ?_
        obtain ⟨hin, hbit⟩ := (h.admits_below hhighest (not_lt.mp hlt)).mp hadmits
        rcases hclosed with hfar | hset
        · exact absurd hin (not_lt.mpr hfar)
        · exact Bool.false_ne_true (hbit.symm.trans hset)
      · rw [not_or, not_le, Bool.not_eq_true] at hclosed
        exact iff_of_true rfl ((h.admits_below hhighest (not_lt.mp hlt)).mpr hclosed)

/-- Accepting does to the window what it does to the set. -/
theorem shows_accept (h : w.Shows accepted) (ctr : Nat) :
    (w.accept ctr).2.size = w.size ∧ (w.accept ctr).2.Shows (admitting w.size accepted ctr) := by
  by_cases hadmits : Admits w.size accepted ctr
  · have haccept := (accept_iff h).mpr hadmits
    rw [admitting, if_pos hadmits]
    rw [accept] at haccept ⊢
    cases hhighest : w.highest with
    | none =>
        refine ⟨rfl, h.first hhighest fun i _ => testBit_one_iff⟩
    | some highest =>
        rw [hhighest] at haccept
        dsimp only at haccept ⊢
        split_ifs at haccept ⊢ with hlt hshift hclosed
        · refine ⟨rfl, h.above hhighest hlt fun i hi => ?_⟩
          rw [Nat.testBit_and, Nat.testBit_or, Nat.testBit_shiftLeft, Nat.testBit_two_pow_sub_one,
            decide_eq_true hi, Bool.and_true, Bool.or_eq_true, testBit_one_iff, Bool.and_eq_true,
            decide_eq_true_iff, or_comm]
        · refine ⟨rfl, h.above hhighest hlt fun i hi => ?_⟩
          rw [testBit_one_iff]
          exact ⟨.inl, fun hor => hor.resolve_right fun hup => hshift (hup.1.trans_lt hi)⟩
        · refine ⟨rfl, h.below hhighest (not_lt.mp hlt) fun i _ => ?_⟩
          rw [Nat.testBit_or, Bool.or_eq_true, Nat.one_shiftLeft, Nat.testBit_two_pow,
            decide_eq_true_iff, or_comm, eq_comm]
  · have hreject : (w.accept ctr).1 = false :=
      Bool.eq_false_of_not_eq_true fun haccept => hadmits ((accept_iff h).mp haccept)
    rw [accept_false hreject, admitting, if_neg hadmits]
    exact ⟨rfl, h⟩

/-! ## Runs -/

/-- The window after some counters have come. -/
def after (w : ReplayWindow) (ctrs : List Nat) : ReplayWindow :=
  ctrs.foldl (fun w ctr => (w.accept ctr).2) w

/-- Those of the counters that are accepted, in their order. -/
def accepts (w : ReplayWindow) : List Nat → List Nat
  | [] => []
  | ctr :: ctrs =>
      if (w.accept ctr).1 then ctr :: (w.accept ctr).2.accepts ctrs
      else (w.accept ctr).2.accepts ctrs

/-- A run goes on from the set that the window shows: it accepts no member of it, nothing twice,
and the window shows the set with what is accepted. -/
theorem shows_after (ctrs : List Nat) {w : ReplayWindow} {accepted : Finset Nat}
    (h : w.Shows accepted) :
    (w.after ctrs).size = w.size ∧ (w.accepts ctrs).Nodup ∧
      (∀ c ∈ w.accepts ctrs, c ∉ accepted) ∧
        (w.after ctrs).Shows (accepted ∪ (w.accepts ctrs).toFinset) := by
  induction ctrs generalizing w accepted with
  | nil =>
      refine ⟨rfl, List.nodup_nil, fun c hc => absurd hc List.not_mem_nil, ?_⟩
      rw [accepts, List.toFinset_nil, Finset.union_empty]
      exact h
  | cons ctr ctrs ih =>
      obtain ⟨hsize, hshows⟩ := shows_accept h ctr
      obtain ⟨hsize', hnodup, hnew, hafter⟩ := ih hshows
      rw [hsize] at hsize'
      by_cases haccept : (w.accept ctr).1 = true
      · have hadmits := (accept_iff h).mp haccept
        rw [admitting, if_pos hadmits] at hnew hafter
        rw [accepts, if_pos haccept]
        refine ⟨hsize', List.nodup_cons.mpr ⟨fun hin => ?_, hnodup⟩, ?_, ?_⟩
        · exact hnew ctr hin (Finset.mem_insert_self _ _)
        · intro c hc hold
          rcases List.mem_cons.mp hc with rfl | hc
          · exact hadmits.1 hold
          · exact hnew c hc (Finset.mem_insert_of_mem hold)
        · rw [List.toFinset_cons, Finset.union_insert, ← Finset.insert_union]
          exact hafter
      · have hadmits : ¬ Admits w.size accepted ctr := fun hadmits => haccept ((accept_iff h).mpr hadmits)
        rw [admitting, if_neg hadmits] at hnew hafter
        rw [accepts, if_neg haccept]
        exact ⟨hsize', hnodup, hnew, hafter⟩

/-- The window refines the set of what was accepted: whatever counters have come, a counter is
accepted if it is not in the set and above the highest less the size; so none is accepted twice. -/
theorem refines_set (size : Nat) (ctrs : List Nat) :
    let w : ReplayWindow := { size }
    (∀ ctr, ((w.after ctrs).accept ctr).1 = true ↔
      ctr ∉ w.accepts ctrs ∧
        ∀ highest, (w.after ctrs).highest = some highest → (highest : ℤ) - size < ctr) ∧
    (∀ highest, (w.after ctrs).highest = some highest ↔
      highest ∈ w.accepts ctrs ∧ ∀ c ∈ w.accepts ctrs, c ≤ highest) ∧
    (w.accepts ctrs).Nodup := by
  intro w
  obtain ⟨hsize, hnodup, -, hshows⟩ := shows_after ctrs (shows_empty w.size w.bits.testBit)
  rw [Finset.empty_union] at hshows
  have hmem : ∀ {c}, c ∈ (w.accepts ctrs).toFinset ↔ c ∈ w.accepts ctrs := List.mem_toFinset
  have hhighest : ∀ highest, (w.after ctrs).highest = some highest ↔
      highest ∈ w.accepts ctrs ∧ ∀ c ∈ w.accepts ctrs, c ≤ highest := by
    intro highest
    constructor
    · intro h
      obtain ⟨hin, hmax⟩ := hshows.highest highest h
      exact ⟨hmem.mp hin, fun c hc => hmax c (hmem.mpr hc)⟩
    · rintro ⟨hin, hmax⟩
      rcases htop : (w.after ctrs).highest with - | top
      · have hempty := hshows.nothing htop
        exact absurd (hmem.mpr hin) (hempty ▸ Finset.notMem_empty highest)
      · obtain ⟨htopin, htopmax⟩ := hshows.highest top htop
        rw [le_antisymm (hmax top (hmem.mp htopin)) (htopmax highest (hmem.mpr hin))]
  refine ⟨fun ctr => ?_, hhighest, hnodup⟩
  rw [accept_iff hshows, Admits, hmem, hsize]
  refine and_congr_right fun _ => ⟨fun hnear highest h => ?_, fun hnear c hc => ?_⟩
  · have hlt := hnear highest (hmem.mpr ((hhighest highest).mp h).1)
    change (highest : ℤ) - size < ctr
    have hlt' : highest < ctr + size := hlt
    omega
  · rcases htop : (w.after ctrs).highest with - | top
    · have hempty := hshows.nothing htop
      exact absurd hc (hempty ▸ Finset.notMem_empty c)
    · have hlt := hnear top htop
      have hle := (hshows.highest top htop).2 c hc
      change c < ctr + size
      omega

end ReplayWindow

end Secdogie.Transport
