/-
# `Secdogie.Symbiont.Budget` — how much may be put in front of the person now

The budget is judged from the focus samples: a mode, a number of slots, and the
time at which the answer could change without a new sample.  That time is
never late (`evaluateBudget_same_slots`): before it the slots are what they
are now, whichever mode the last review gave.

Times are rational numbers of milliseconds, and `⊤` is `Infinity`.
-/
import Mathlib

namespace Secdogie.Symbiont

inductive ContextClass where
  | work | communication | media | sensitive | presenting | unknown
deriving DecidableEq

inductive Surface where
  | secdogie | other | unknown
deriving DecidableEq

structure FocusSample where
  at_ : ℚ
  surface : Surface
  context : ContextClass
  /-- key and pointer presses in the interval -/
  inputEvents : ℚ
  /-- the interval that they cover -/
  sampleMs : ℚ
  /-- time since the last input, as of `at_` -/
  idleMs : ℚ

inductive AttentionMode where
  | flow | engaged | gap | away | suppressed
deriving DecidableEq

structure InterruptionBudget where
  mode : AttentionMode
  score : ℚ
  /-- how many proposals may be surfaced now -/
  slots : ℚ
  cpm : ℚ
  idleMs : WithTop ℚ
  reasons : List String
  /-- when the mode could change on its own -/
  nextReviewAt : WithTop ℚ

structure BudgetConfig where
  windowMs : ℚ := 90000
  flowCpm : ℚ := 150
  flowMinMs : ℚ := 20000
  gapPauseMs : ℚ := 4000
  awayAfterMs : ℚ := 300000
  maxSlots : ℚ := 3

/-- The events a minute in the samples after a time, and the time they cover. -/
def rate (samples : List FocusSample) (after : ℚ) : ℚ × ℚ :=
  let late := samples.filter fun s => after < s.at_
  let events := (late.map FocusSample.inputEvents).sum
  let ms := (late.map FocusSample.sampleMs).sum
  (if 0 < ms then events * 60000 / ms else 0, ms)

/-- `Math.round` -/
def mathRound (x : ℚ) : Int := ⌊x + 1 / 2⌋

def evaluateBudget (samples : List FocusSample) (now : ℚ) (prev : Option AttentionMode)
    (cfg : BudgetConfig) : InterruptionBudget :=
  match samples.getLast? with
  | none =>
      { mode := .away, score := 0, slots := 0, cpm := 0, idleMs := ⊤,
        reasons := ["no focus signal yet"], nextReviewAt := ⊤ }
  | some latest =>
      let idleMs := latest.idleMs + max 0 (now - latest.at_)
      let cpm := (rate samples (now - cfg.windowMs)).1
      let recent := rate samples (now - cfg.flowMinMs)
      let toGap := latest.at_ + (cfg.gapPauseMs - latest.idleMs)
      let toAway := latest.at_ + (cfg.awayAfterMs - latest.idleMs)
      let sustained := cfg.flowMinMs * (9 / 10) ≤ recent.2 ∧ cfg.flowCpm ≤ recent.1
      if latest.context = .sensitive ∨ latest.context = .presenting then
        { mode := .suppressed, score := 0, slots := 0, cpm, idleMs,
          reasons := [if latest.context = .sensitive then "a sensitive context is in front"
            else "the screen is being presented"],
          nextReviewAt := ⊤ }
      else if cfg.awayAfterMs ≤ idleMs then
        { mode := .away, score := 0, slots := 0, cpm, idleMs,
          reasons := ["no input for a long while"], nextReviewAt := ⊤ }
      else if latest.surface = .secdogie then
        { mode := .gap, score := 1, slots := cfg.maxSlots, cpm, idleMs,
          reasons := ["focus is on SecDogie"], nextReviewAt := toAway }
      else if cfg.gapPauseMs ≤ idleMs then
        { mode := .gap, score := min 1 (6 / 10 + 4 / 10 * idleMs / 30000), slots := 1, cpm, idleMs,
          reasons := ["a pause of " ++ toString (mathRound (idleMs / 1000)) ++ "s"],
          nextReviewAt := toAway }
      else if sustained ∨ prev = some .flow then
        { mode := .flow, score := 0, slots := 0, cpm, idleMs,
          reasons := [if sustained then
              "sustained input at " ++ toString (mathRound recent.1) ++ "/min"
            else "still in flow (no pause yet)"],
          nextReviewAt := toGap }
      else
        { mode := .engaged, score := 3 / 10, slots := 0, cpm, idleMs,
          reasons := ["working; waiting for a pause"], nextReviewAt := toGap }

/-! ## The next review is never late -/

variable {samples : List FocusSample} {now t : ℚ} {prev prev' : Option AttentionMode}
  {cfg : BudgetConfig} {latest : FocusSample}

/-- How long nobody has touched anything. -/
def idleAt (latest : FocusSample) (now : ℚ) : ℚ := latest.idleMs + max 0 (now - latest.at_)

theorem idleAt_mono (h : now ≤ t) : idleAt latest now ≤ idleAt latest t := by
  have hmax : max 0 (now - latest.at_) ≤ max 0 (t - latest.at_) := max_le_max le_rfl (by linarith)
  rw [idleAt, idleAt]
  linarith

/-- A bound on the idle time that is not met now is first met at this time. -/
theorem idleAt_lt {bound : ℚ} (hnow : idleAt latest now < bound)
    (ht : t < latest.at_ + (bound - latest.idleMs)) : idleAt latest t < bound := by
  have hidle : latest.idleMs < bound := by
    have hle : (0 : ℚ) ≤ max 0 (now - latest.at_) := le_max_left _ _
    rw [idleAt] at hnow
    linarith
  rw [idleAt]
  rcases max_choice 0 (t - latest.at_) with hmax | hmax
  · rw [hmax]
    linarith
  · rw [hmax]
    linarith

/-- The slots, by what they depend on. -/
def slotsOf (latest : FocusSample) (cfg : BudgetConfig) (idleMs : ℚ) : ℚ :=
  if latest.context = .sensitive ∨ latest.context = .presenting then 0
  else if cfg.awayAfterMs ≤ idleMs then 0
  else if latest.surface = .secdogie then cfg.maxSlots
  else if cfg.gapPauseMs ≤ idleMs then 1
  else 0

/-- The slots and the next review, by the idle time; the mode of the last review changes neither. -/
theorem slots_nextReviewAt (h : samples.getLast? = some latest) :
    (evaluateBudget samples now prev cfg).slots = slotsOf latest cfg (idleAt latest now) ∧
    (evaluateBudget samples now prev cfg).nextReviewAt =
      if latest.context = .sensitive ∨ latest.context = .presenting then ⊤
      else if cfg.awayAfterMs ≤ idleAt latest now then ⊤
      else if latest.surface = .secdogie ∨ cfg.gapPauseMs ≤ idleAt latest now then
        ((latest.at_ + (cfg.awayAfterMs - latest.idleMs) : ℚ) : WithTop ℚ)
      else ((latest.at_ + (cfg.gapPauseMs - latest.idleMs) : ℚ) : WithTop ℚ) := by
  rw [evaluateBudget, h, slotsOf, idleAt]
  dsimp only
  by_cases hcontext : latest.context = .sensitive ∨ latest.context = .presenting
  · rw [if_pos hcontext, if_pos hcontext, if_pos hcontext]
    exact ⟨rfl, rfl⟩
  rw [if_neg hcontext, if_neg hcontext, if_neg hcontext]
  by_cases haway : cfg.awayAfterMs ≤ latest.idleMs + max 0 (now - latest.at_)
  · rw [if_pos haway, if_pos haway, if_pos haway]
    exact ⟨rfl, rfl⟩
  rw [if_neg haway, if_neg haway, if_neg haway]
  by_cases hsurface : latest.surface = .secdogie
  · rw [if_pos hsurface, if_pos hsurface, if_pos (.inl hsurface)]
    exact ⟨rfl, rfl⟩
  rw [if_neg hsurface, if_neg hsurface]
  by_cases hgap : cfg.gapPauseMs ≤ latest.idleMs + max 0 (now - latest.at_)
  · rw [if_pos hgap, if_pos hgap, if_pos (.inr hgap)]
    exact ⟨rfl, rfl⟩
  rw [if_neg hgap, if_neg hgap, if_neg (not_or.mpr ⟨hsurface, hgap⟩)]
  split_ifs
  all_goals exact ⟨rfl, rfl⟩

/-- Before the next review the slots are what they are now. -/
theorem evaluateBudget_same_slots (hnow : now ≤ t)
    (ht : (t : WithTop ℚ) < (evaluateBudget samples now prev cfg).nextReviewAt) :
    (evaluateBudget samples t prev' cfg).slots = (evaluateBudget samples now prev cfg).slots := by
  cases hlatest : samples.getLast? with
  | none => rw [evaluateBudget, evaluateBudget, hlatest]
  | some latest =>
      obtain ⟨hslots, hnext⟩ := @slots_nextReviewAt samples now prev cfg latest hlatest
      rw [hnext] at ht
      rw [hslots, (@slots_nextReviewAt samples t prev' cfg latest hlatest).1, slotsOf, slotsOf]
      by_cases hcontext : latest.context = .sensitive ∨ latest.context = .presenting
      · rw [if_pos hcontext, if_pos hcontext]
      rw [if_neg hcontext] at ht ⊢
      rw [if_neg hcontext]
      have hmono := @idleAt_mono now t latest hnow
      by_cases haway : cfg.awayAfterMs ≤ idleAt latest now
      · rw [if_pos haway, if_pos (haway.trans hmono)]
      rw [if_neg haway] at ht ⊢
      by_cases hgap : latest.surface = .secdogie ∨ cfg.gapPauseMs ≤ idleAt latest now
      · -- the gap lasts until nobody is there
        rw [if_pos hgap] at ht
        have hthere := idleAt_lt (not_le.mp haway) (WithTop.coe_lt_coe.mp ht)
        rw [if_neg (not_le.mpr hthere)]
        by_cases hsurface : latest.surface = .secdogie
        · rw [if_pos hsurface, if_pos hsurface]
        · have hidle := hgap.resolve_left hsurface
          rw [if_neg hsurface, if_neg hsurface, if_pos hidle, if_pos (hidle.trans hmono)]
      · rw [if_neg hgap] at ht
        obtain ⟨hsurface, hbusy⟩ := not_or.mp hgap
        have hstill := idleAt_lt (not_le.mp hbusy) (WithTop.coe_lt_coe.mp ht)
        rw [if_neg hsurface, if_neg hsurface, if_neg (not_le.mpr hstill), if_neg hbusy, ite_self]

end Secdogie.Symbiont
