/-
# `Secdogie.Lib.Seqlock` — a copy made between two looks at a counter

One writer and any number of readers share a memory and a counter.  The writer
makes the counter odd before it writes and even again when it is done; a reader
looks at the counter, copies the memory cell by cell, each at its own time, and
looks again.  If the counter was even and has not moved, every cell is of one
and the same settled memory (`copy_settled`), also where the counter is seen
modulo some even number that it did not go round in between (`sample_inj`).
-/
import Mathlib.Algebra.Ring.Parity
import Mathlib.Data.Nat.ModEq

namespace Secdogie.Seqlock

variable {ι α : Type*}

/-- What the writer and its readers share. -/
structure State (ι α : Type*) where
  count : ℕ
  mem : ι → α

/-- No write is in progress. -/
def State.Settled (s : State ι α) : Prop := Even s.count

/-- The counter, as a reader sees it. -/
def State.sample (M : ℕ) (s : State ι α) : ℕ := s.count % M

/-- What the writer does. -/
inductive Step : State ι α → State ι α → Prop
  | start {s : State ι α} : Even s.count → Step s { s with count := s.count + 1 }
  | write {s : State ι α} (mem : ι → α) : Odd s.count → Step s { s with mem := mem }
  | settle {s : State ι α} : Odd s.count → Step s { s with count := s.count + 1 }

/-- The shared state from moment to moment: the writer does something, or nothing. -/
def Runs (σ : ℕ → State ι α) : Prop := ∀ t, σ (t + 1) = σ t ∨ Step (σ t) (σ (t + 1))

theorem Step.count_le {s s' : State ι α} (h : Step s s') : s.count ≤ s'.count := by
  cases h with
  | start _ => exact Nat.le_succ _
  | write _ _ => exact Nat.le_refl _
  | settle _ => exact Nat.le_succ _

/-- From a settled state the writer does nothing that leaves the counter. -/
theorem Step.count_lt {s s' : State ι α} (h : Step s s') (hs : s.Settled) :
    s.count < s'.count := by
  cases h with
  | start _ => exact Nat.lt_succ_self _
  | write _ hodd => exact absurd hs (Nat.not_even_iff_odd.mpr hodd)
  | settle _ => exact Nat.lt_succ_self _

section

variable {σ : ℕ → State ι α} (hrun : Runs σ)
include hrun

theorem count_mono : Monotone fun t => (σ t).count := by
  refine monotone_nat_of_le_succ fun t => ?_
  rcases hrun t with heq | hstep
  · exact le_of_eq (congrArg State.count heq).symm
  · exact hstep.count_le

/-- A settled state stays until the counter moves. -/
theorem settled_const {t₁ t₂ : ℕ} (hs : (σ t₁).Settled) (hcount : (σ t₁).count = (σ t₂).count) :
    ∀ t, t₁ ≤ t → t ≤ t₂ → σ t = σ t₁ := by
  intro t hle
  induction t, hle using Nat.le_induction with
  | base => exact fun _ => rfl
  | succ t hle ih =>
      intro ht
      have hsame : σ t = σ t₁ := ih (Nat.le_of_succ_le ht)
      rcases hrun t with heq | hstep
      · exact heq.trans hsame
      · have hlt := hstep.count_lt (hsame ▸ hs)
        have hle' : (σ (t + 1)).count ≤ (σ t₂).count := count_mono hrun ht
        rw [hsame] at hlt
        omega

/-- Cells that are copied one by one between two equal looks at an even counter. -/
theorem copy_settled {t₁ t₂ : ℕ} {τ : ι → ℕ} (hs : (σ t₁).Settled)
    (hcount : (σ t₁).count = (σ t₂).count) (hτ : ∀ i, t₁ ≤ τ i ∧ τ i ≤ t₂) :
    (fun i => (σ (τ i)).mem i) = (σ t₁).mem := by
  funext i
  rw [settled_const hrun hs hcount (τ i) (hτ i).1 (hτ i).2]

/-- Two samples that agree are of one count, if the counter did not go round between them. -/
theorem sample_inj {t₁ t₂ M : ℕ} (hle : t₁ ≤ t₂)
    (hwrap : (σ t₂).count < (σ t₁).count + M) (h : (σ t₁).sample M = (σ t₂).sample M) :
    (σ t₁).count = (σ t₂).count := by
  have hmono : (σ t₁).count ≤ (σ t₂).count := count_mono hrun hle
  have hdvd : M ∣ (σ t₂).count - (σ t₁).count := (Nat.modEq_iff_dvd' hmono).mp h
  have hzero := Nat.eq_zero_of_dvd_of_lt hdvd (by omega)
  omega

end

/-- Where the modulus is even, a sample is even just when no write is in progress. -/
theorem settled_iff_sample {M : ℕ} (hM : Even M) (s : State ι α) :
    s.Settled ↔ s.sample M % 2 = 0 := by
  rw [State.Settled, Nat.even_iff, State.sample, Nat.mod_mod_of_dvd _ hM.two_dvd]

end Secdogie.Seqlock
