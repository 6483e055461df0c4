/-
# `Secdogie.Inference.Health` — how long a node is left alone, and on whose word

A breaker opens on failures that follow each other, a fault tracker quarantines
on reports; both leave the node alone for twice as long each time, and say so
with a power of two that is multiplied with a float.  From the 1024th on that
power is no float any more, and computing it raises.

`voices_iff` says along which runs neither raises, neither goes beyond its
longest cooldown, and nobody healthy is quarantined on fewer voices than it
takes.
-/
import Secdogie.Lib.Along
import Secdogie.Lib.OrderedDict
import Secdogie.Lib.StrMap

namespace Secdogie.Inference

/-- `min(cooldown * 2 ** k, max_cooldown)`; `none` is its `OverflowError`. -/
def backoff (cooldown max_cooldown : ℚ) (k : ℕ) : Option ℚ :=
  if k < 1024 then some (min (cooldown * 2 ^ k) max_cooldown) else none

/-- How a call ends. -/
inductive Outcome where
  | raised
  | returned (value : Bool)
deriving DecidableEq

/-! ## The breaker -/

inductive Circuit where
  | closed
  | opened
  | halfOpen
deriving DecidableEq

structure BreakerState where
  failures : ℕ := 0
  trips : ℕ := 0
  until_ : ℚ := 0
  isOpen : Bool := false

structure CircuitBreaker where
  threshold : ℕ := 3
  cooldown : ℚ := 30
  max_cooldown : ℚ := 600
  states : StrMap BreakerState := ∅
  threshold_pos : 1 ≤ threshold := by decide

namespace CircuitBreaker

variable (b : CircuitBreaker) (key : String) (now : ℚ)

/-- The state of a key, a fresh one if it has none. -/
def stateOf : BreakerState := (b.states[key]?).getD {}

def put (st : BreakerState) : CircuitBreaker := { b with states := b.states.insert key st }

def state : Circuit :=
  let st := b.stateOf key
  if !st.isOpen then .closed else if now < st.until_ then .opened else .halfOpen

def available : Bool := decide (b.state key now ≠ .opened)

def success : CircuitBreaker := { b with states := b.states.erase key }

def failure : CircuitBreaker × Outcome :=
  let st := b.stateOf key
  if st.isOpen then
    if now < st.until_ then (b.put key st, .returned false)
    else
      let st := { st with trips := st.trips + 1 }
      match backoff b.cooldown b.max_cooldown st.trips with
      | none => (b.put key st, .raised)
      | some c => (b.put key { st with until_ := now + c }, .returned true)
  else
    let st := { st with failures := st.failures + 1 }
    if st.failures < b.threshold then (b.put key st, .returned false)
    else
      (b.put key { st with isOpen := true, failures := 0, until_ := now + b.cooldown }, .returned true)

end CircuitBreaker

/-! ## The tracker -/

inductive Health where
  | healthy
  | quarantined
  | probation
deriving DecidableEq

structure FaultRecord where
  /-- reporter to when -/
  reports : OrderedDict String ℚ := .empty
  strikes : ℕ := 0
  until_ : ℚ := 0
  probation_until : ℚ := 0

structure FaultTracker where
  threshold : ℕ := 2
  window : ℚ := 60
  cooldown : ℚ := 60
  max_cooldown : ℚ := 3600
  probation : ℚ := 30
  records : StrMap FaultRecord := ∅
  threshold_pos : 1 ≤ threshold := by decide

namespace FaultTracker

variable (f : FaultTracker) (accused reporter : String) (now : ℚ)

def recordOf : FaultRecord := (f.records[accused]?).getD {}

def put (rec : FaultRecord) : FaultTracker := { f with records := f.records.insert accused rec }

/-- The record with this report in it: old strikes are forgiven, old reports forgotten. -/
def withReport : FaultRecord :=
  let record := f.recordOf accused
  { record with
    strikes :=
      if record.strikes ≠ 0 ∧ record.probation_until + 10 * f.cooldown < now then 0
      else record.strikes
    reports := (record.reports.filter (fun _ t => decide (now - t ≤ f.window))).set reporter now }

/-- How many reports it takes. -/
def need : ℕ := if now < (f.recordOf accused).probation_until then 1 else f.threshold

def report : FaultTracker × Outcome :=
  if accused = reporter then (f, .returned false)
  else if now < (f.recordOf accused).until_ then (f.put accused (f.recordOf accused), .returned false)
  else
    let record := f.withReport accused reporter now
    if record.reports.keys.length < f.need accused now then (f.put accused record, .returned false)
    else
      match backoff f.cooldown f.max_cooldown record.strikes with
      | none => (f.put accused { record with strikes := record.strikes + 1 }, .raised)
      | some c =>
          (f.put accused ⟨.empty, record.strikes + 1, now + c, now + c + f.probation⟩, .returned true)

def status (did : String) : Health :=
  match f.records[did]? with
  | none => .healthy
  | some rec =>
      if now < rec.until_ then .quarantined
      else if now < rec.probation_until then .probation
      else .healthy

end FaultTracker

/-! ## Runs -/

/-- A breaker and a tracker, and the reports made so far: accused, reporter and when. -/
structure Monitor where
  breaker : CircuitBreaker
  tracker : FaultTracker
  heard : List (String × String × ℚ) := []

inductive MonitorEvent where
  | failure (key : String) (now : ℚ)
  | success (key : String)
  | report (accused reporter : String) (now : ℚ)

namespace Monitor

def step (m : Monitor) : MonitorEvent → Monitor
  | .failure key now => { m with breaker := (m.breaker.failure key now).1 }
  | .success key => { m with breaker := m.breaker.success key }
  | .report accused reporter now =>
      { m with
        tracker := (m.tracker.report accused reporter now).1
        heard := (accused, reporter, now) :: m.heard }

/-- Before anything has happened, with these settings. -/
def start (b : CircuitBreaker) (f : FaultTracker) : Monitor where
  breaker := { b with states := ∅ }
  tracker := { f with records := ∅ }

/-- As many others than the accused as it takes have reported it within the window (now is within
any window). -/
def Voices (m : Monitor) (accused : String) (now : ℚ) : Prop :=
  ∃ reporters : Finset String, m.tracker.threshold ≤ reporters.card ∧ accused ∉ reporters ∧
    ∀ r ∈ reporters, ∃ t, (accused, r, t) ∈ m.heard ∧ now - t ≤ max m.tracker.window 0

/-- The event does not raise, no cooldown is longer than the longest, and a healthy node is
quarantined only by enough voices. -/
def Sound (m : Monitor) : MonitorEvent → Prop
  | .failure key now =>
      ∃ opens, (m.breaker.failure key now).2 = .returned opens ∧
        (opens = true → ((m.step (.failure key now)).breaker.stateOf key).until_ - now ≤
          m.breaker.max_cooldown)
  | .success _ => True
  | .report accused reporter now =>
      ∃ quarantines, (m.tracker.report accused reporter now).2 = .returned quarantines ∧
        (quarantines = true →
          ((m.step (.report accused reporter now)).tracker.recordOf accused).until_ - now ≤
            m.tracker.max_cooldown ∧
          (m.tracker.status now accused = .healthy →
            (m.step (.report accused reporter now)).Voices accused now))

/-- A breaker that opens has a cooldown no longer than the longest, one that re-opens has done so
fewer than 1023 times, and a node that is quarantined has fewer than 1024 strikes. -/
def Within (m : Monitor) : MonitorEvent → Prop
  | .failure key now =>
      let st := m.breaker.stateOf key
      (st.isOpen = false → m.breaker.threshold ≤ st.failures + 1 →
        m.breaker.cooldown ≤ m.breaker.max_cooldown) ∧
      (st.isOpen = true → st.until_ ≤ now → st.trips < 1023)
  | .success _ => True
  | .report accused reporter now =>
      accused ≠ reporter → (m.tracker.recordOf accused).until_ ≤ now →
        m.tracker.need accused now ≤ (m.tracker.withReport accused reporter now).reports.keys.length →
          (m.tracker.withReport accused reporter now).strikes < 1024

end Monitor

/-! ## One event -/

theorem backoff_eq_none {cooldown max_cooldown : ℚ} {k : ℕ} :
    backoff cooldown max_cooldown k = none ↔ 1024 ≤ k := by
  rw [backoff]
  split
  · next h => exact iff_of_false (fun h => nomatch h) (not_le.mpr h)
  · next h => exact iff_of_true rfl (not_lt.mp h)

theorem backoff_le {cooldown max_cooldown c : ℚ} {k : ℕ}
    (h : backoff cooldown max_cooldown k = some c) : c ≤ max_cooldown := by
  rw [backoff] at h
  split at h
  · exact Option.some.inj h ▸ min_le_right _ _
  · exact nomatch h

namespace CircuitBreaker

variable {b : CircuitBreaker} {key : String} {now : ℚ}

@[simp] theorem stateOf_put (st : BreakerState) : (b.put key st).stateOf key = st := by
  simp [stateOf, put]

end CircuitBreaker

namespace FaultTracker

variable {f : FaultTracker} {accused reporter : String} {now : ℚ}

@[simp] theorem recordOf_put (rec : FaultRecord) : (f.put accused rec).recordOf accused = rec := by
  simp [recordOf, put]

theorem recordOf_put_ne {did : String} (rec : FaultRecord) (h : accused ≠ did) :
    (f.put accused rec).recordOf did = f.recordOf did := by
  simp [recordOf, put, h]

/-- A healthy node that can be quarantined is on no probation. -/
theorem need_of_healthy (h : f.status now accused = .healthy) (huntil : (f.recordOf accused).until_ ≤ now) :
    f.need accused now = f.threshold := by
  rw [need]
  refine if_neg ?_
  rw [status] at h
  rw [recordOf] at huntil ⊢
  cases hrec : f.records[accused]? with
  | none =>
      rw [hrec] at huntil
      exact not_lt.mpr huntil
  | some rec =>
      rw [hrec] at h
      dsimp only at h
      split at h
      · exact nomatch h
      · split at h
        · exact nomatch h
        · next hprobation => exact hprobation

end FaultTracker

namespace Monitor

/-- Every report on record was made, by another than the accused. -/
def Recorded (m : Monitor) : Prop :=
  ∀ accused r t, (m.tracker.recordOf accused).reports.get r = some t →
    r ≠ accused ∧ (accused, r, t) ∈ m.heard

variable {m : Monitor}

theorem recorded_start (b : CircuitBreaker) (f : FaultTracker) : (start b f).Recorded := by
  intro accused r t hget
  simp [FaultTracker.recordOf, start] at hget

/-- The reports that come with one more. -/
theorem recorded_withReport (h : m.Recorded) {accused reporter : String} (hne : accused ≠ reporter)
    (now : ℚ) {r : String} {t : ℚ}
    (hget : (m.tracker.withReport accused reporter now).reports.get r = some t) :
    r ≠ accused ∧ (accused, r, t) ∈ (accused, reporter, now) :: m.heard ∧
      (now - t ≤ m.tracker.window ∨ r = reporter ∧ t = now) := by
  rw [FaultTracker.withReport] at hget
  dsimp only at hget
  rw [OrderedDict.get_set] at hget
  split at hget
  · next hr =>
      obtain rfl := Option.some.inj hget
      subst hr
      exact ⟨hne.symm, List.mem_cons_self, .inr ⟨rfl, rfl⟩⟩
  · obtain ⟨hold, hrecent⟩ := OrderedDict.get_filter_eq_some_iff.mp hget
    obtain ⟨hother, hheard⟩ := h accused r t hold
    exact ⟨hother, List.mem_cons_of_mem _ hheard, .inl (of_decide_eq_true hrecent)⟩

/-- A record that is written holds reports that were made. -/
theorem recorded_put (h : m.Recorded) {accused : String} {rec : FaultRecord}
    {heard : List (String × String × ℚ)} (hsub : ∀ x ∈ m.heard, x ∈ heard)
    (hrec : ∀ r t, rec.reports.get r = some t → r ≠ accused ∧ (accused, r, t) ∈ heard) :
    Recorded { m with tracker := m.tracker.put accused rec, heard := heard } := by
  intro did r t hget
  dsimp only at hget ⊢
  by_cases hdid : accused = did
  · subst hdid
    rw [FaultTracker.recordOf_put] at hget
    exact hrec r t hget
  · rw [FaultTracker.recordOf_put_ne rec hdid] at hget
    obtain ⟨hother, hheard⟩ := h did r t hget
    exact ⟨hother, hsub _ hheard⟩

theorem recorded_step (m : Monitor) (e : MonitorEvent) (h : m.Recorded) : (m.step e).Recorded := by
  cases e with
  | failure key now => exact h
  | success key => exact h
  | report accused reporter now =>
      have hsub : ∀ x ∈ m.heard, x ∈ (accused, reporter, now) :: m.heard :=
        fun x hx => List.mem_cons_of_mem _ hx
      have hold : ∀ r t, (m.tracker.recordOf accused).reports.get r = some t →
          r ≠ accused ∧ (accused, r, t) ∈ (accused, reporter, now) :: m.heard := fun r t hget =>
        ⟨(h accused r t hget).1, hsub _ (h accused r t hget).2⟩
      rw [step, FaultTracker.report]
      split
      · intro did r t hget
        exact ⟨(h did r t hget).1, hsub _ (h did r t hget).2⟩
      · next hne =>
          have hnew : ∀ r t, (m.tracker.withReport accused reporter now).reports.get r = some t →
              r ≠ accused ∧ (accused, r, t) ∈ (accused, reporter, now) :: m.heard := fun r t hget =>
            ⟨(recorded_withReport h hne now hget).1, (recorded_withReport h hne now hget).2.1⟩
          split
          · exact recorded_put h hsub hold
          · dsimp only
            split
            · exact recorded_put h hsub hnew
            · split
              · exact recorded_put h hsub hnew
              · exact recorded_put h hsub fun r t hget => nomatch hget

/-- The reports that are due are of enough others, within the window. -/
theorem voices_of_due (h : m.Recorded) {accused reporter : String} {now : ℚ} (hne : accused ≠ reporter)
    (hdue : m.tracker.threshold ≤
      (m.tracker.withReport accused reporter now).reports.keys.length) :
    ∃ reporters : Finset String, m.tracker.threshold ≤ reporters.card ∧ accused ∉ reporters ∧
      ∀ r ∈ reporters, ∃ t, (accused, r, t) ∈ (accused, reporter, now) :: m.heard ∧
        now - t ≤ max m.tracker.window 0 := by
  refine ⟨(m.tracker.withReport accused reporter now).reports.keys.toFinset, ?_, ?_, fun r hr => ?_⟩
  · rwa [List.toFinset_card_of_nodup (OrderedDict.nodup_keys _)]
  · intro hmem
    obtain ⟨t, hget⟩ := OrderedDict.mem_keys.mp (List.mem_toFinset.mp hmem)
    exact (recorded_withReport h hne now hget).1 rfl
  · obtain ⟨t, hget⟩ := OrderedDict.mem_keys.mp (List.mem_toFinset.mp hr)
    obtain ⟨-, hheard, hrecent⟩ := recorded_withReport h hne now hget
    refine ⟨t, hheard, ?_⟩
    rcases hrecent with hrecent | ⟨-, rfl⟩
    · exact hrecent.trans (le_max_left _ _)
    · rw [sub_self]
      exact le_max_right _ _

theorem failure_sound_iff (m : Monitor) (key : String) (now : ℚ) :
    m.Sound (.failure key now) ↔ m.Within (.failure key now) := by
  rw [Sound, Within, step, CircuitBreaker.failure]
  dsimp only
  split
  · next hopen =>
      rw [hopen]
      split
      · next hearly =>
          exact iff_of_true ⟨false, rfl, fun h => by cases h⟩
            ⟨fun h => (by cases h), fun _ hle => absurd hearly (not_lt.mpr hle)⟩
      · next hlate =>
          have htrips : ((true = false → m.breaker.threshold ≤ (m.breaker.stateOf key).failures + 1 →
              m.breaker.cooldown ≤ m.breaker.max_cooldown) ∧
              (true = true → (m.breaker.stateOf key).until_ ≤ now →
                (m.breaker.stateOf key).trips < 1023)) ↔ (m.breaker.stateOf key).trips < 1023 :=
            ⟨fun h => h.2 rfl (not_lt.mp hlate), fun h => ⟨fun h => (by cases h), fun _ _ => h⟩⟩
          rw [htrips]
          split
          · next hnone =>
              have hmany := backoff_eq_none.mp hnone
              refine iff_of_false ?_ (by omega)
              rintro ⟨opens, heq, -⟩
              cases heq
          · next c hsome =>
              have hfew : ¬ 1024 ≤ (m.breaker.stateOf key).trips + 1 := fun hmany =>
                nomatch hsome.symm.trans (backoff_eq_none.mpr hmany)
              refine iff_of_true ⟨true, rfl, fun _ => ?_⟩ (by omega)
              rw [CircuitBreaker.stateOf_put, add_sub_cancel_left]
              exact backoff_le hsome
  · next hclosed =>
      rw [Bool.not_eq_true] at hclosed
      rw [hclosed]
      split
      · next hfew =>
          exact iff_of_true ⟨false, rfl, fun h => by cases h⟩
            ⟨fun _ hle => absurd hfew (not_lt.mpr hle), fun h => by cases h⟩
      · next hmany =>
          constructor
          · rintro ⟨opens, heq, hle⟩
            obtain rfl := Outcome.returned.inj heq
            refine ⟨fun _ _ => ?_, fun h => by cases h⟩
            have hcool := hle rfl
            rwa [CircuitBreaker.stateOf_put, add_sub_cancel_left] at hcool
          · intro h
            refine ⟨true, rfl, fun _ => ?_⟩
            rw [CircuitBreaker.stateOf_put, add_sub_cancel_left]
            exact h.1 rfl (not_lt.mp hmany)

theorem report_sound_iff (h : m.Recorded) (accused reporter : String) (now : ℚ) :
    m.Sound (.report accused reporter now) ↔ m.Within (.report accused reporter now) := by
  rw [Sound, Within, step, FaultTracker.report]
  split
  · next heq =>
      exact iff_of_true ⟨false, rfl, fun h => nomatch h⟩ fun hne => absurd heq hne
  · next hne =>
      split
      · next hearly =>
          exact iff_of_true ⟨false, rfl, fun h => nomatch h⟩
            fun _ hle => absurd hearly (not_lt.mpr hle)
      · next hlate =>
          dsimp only
          split
          · next hfew =>
              exact iff_of_true ⟨false, rfl, fun h => nomatch h⟩
                fun _ _ hle => absurd hfew (not_lt.mpr hle)
          · next hdue =>
              have hstrikes : (accused ≠ reporter → (m.tracker.recordOf accused).until_ ≤ now →
                  m.tracker.need accused now ≤
                    (m.tracker.withReport accused reporter now).reports.keys.length →
                  (m.tracker.withReport accused reporter now).strikes < 1024) ↔
                    (m.tracker.withReport accused reporter now).strikes < 1024 :=
                ⟨fun h => h hne (not_lt.mp hlate) (not_lt.mp hdue), fun h _ _ _ => h⟩
              rw [hstrikes]
              split
              · next hnone =>
                  refine iff_of_false ?_ (not_lt.mpr (backoff_eq_none.mp hnone))
                  rintro ⟨quarantines, heq, -⟩
                  exact nomatch heq
              · next c hsome =>
                  have hfew : ¬ 1024 ≤ (m.tracker.withReport accused reporter now).strikes :=
                    fun hmany => nomatch hsome.symm.trans (backoff_eq_none.mpr hmany)
                  refine iff_of_true ⟨true, rfl, fun _ => ⟨?_, fun hhealthy => ?_⟩⟩ (not_le.mp hfew)
                  · rw [FaultTracker.recordOf_put]
                    dsimp only
                    rw [add_sub_cancel_left]
                    exact backoff_le hsome
                  · have hneed := FaultTracker.need_of_healthy hhealthy (not_lt.mp hlate)
                    rw [hneed] at hdue
                    exact voices_of_due h hne (not_lt.mp hdue)

theorem sound_iff (m : Monitor) (e : MonitorEvent) (h : m.Recorded) : m.Sound e ↔ m.Within e := by
  cases e with
  | failure key now => exact failure_sound_iff m key now
  | success key => exact Iff.rfl
  | report accused reporter now => exact report_sound_iff h accused reporter now

/-- A run from the start is sound just when every event of it is within the limits. -/
theorem voices_iff (b : CircuitBreaker) (f : FaultTracker) (es : List MonitorEvent) :
    Along.All step Sound (start b f) es ↔ Along.All step Within (start b f) es :=
  Along.all_congr recorded_step sound_iff es (recorded_start b f)

/-! ## A node that keeps failing -/

/-- Failures of one node, so many of them, a thousand seconds apart. -/
def failures : ℕ → List MonitorEvent
  | 0 => []
  | n + 1 => failures n ++ [.failure "node:n" (1000 * n)]

/-- After three failures and so many more the breaker has re-opened that often. -/
theorem trips_failures : ∀ n : ℕ, n ≤ 1023 → ∃ st : BreakerState,
    ((failures (n + 3)).foldl step (start {} {})).breaker.stateOf "node:n" = st ∧
      ((failures (n + 3)).foldl step (start {} {})).breaker.cooldown = 30 ∧
      ((failures (n + 3)).foldl step (start {} {})).breaker.max_cooldown = 600 ∧
      st.isOpen = true ∧ st.trips = n ∧ st.until_ ≤ 1000 * ((n : ℚ) + 3)
  | 0, _ => by
      refine ⟨⟨0, 0, 1000 * 2 + 30, true⟩, ?_, ?_, ?_, rfl, rfl, ?_⟩
      · simp [failures, step, CircuitBreaker.failure, CircuitBreaker.stateOf, CircuitBreaker.put, start]
      · simp [failures, step, CircuitBreaker.failure, CircuitBreaker.stateOf, CircuitBreaker.put, start]
      · simp [failures, step, CircuitBreaker.failure, CircuitBreaker.stateOf, CircuitBreaker.put, start]
      · norm_num
  | n + 1, hn => by
      obtain ⟨st, hst, hcool, hmax, hopen, htrips, huntil⟩ := trips_failures n (by omega)
      have hnext : failures (n + 1 + 3) = failures (n + 3) ++ [.failure "node:n" (1000 * ((n + 3 : ℕ) : ℚ))] :=
        rfl
      have hlate : ¬ 1000 * ((n + 3 : ℕ) : ℚ) < st.until_ := by
        rw [not_lt]
        exact_mod_cast huntil
      have hpower : backoff 30 600 (n + 1) = some (min (30 * 2 ^ (n + 1)) 600) :=
        if_pos (by omega)
      have hfailure : (((failures (n + 3)).foldl step (start {} {})).breaker.failure "node:n"
          (1000 * ((n + 3 : ℕ) : ℚ))).1 =
            ((failures (n + 3)).foldl step (start {} {})).breaker.put "node:n"
              { st with trips := n + 1, until_ := 1000 * ((n + 3 : ℕ) : ℚ) + min (30 * 2 ^ (n + 1)) 600 } := by
        rw [CircuitBreaker.failure, hst, if_pos hopen, if_neg hlate]
        dsimp only
        rw [hcool, hmax, htrips, hpower]
      rw [hnext, List.foldl_append, List.foldl_cons, List.foldl_nil, step]
      dsimp only
      rw [hfailure]
      refine ⟨_, CircuitBreaker.stateOf_put _, hcool, hmax, hopen, rfl, ?_⟩
      have hmin : min (30 * 2 ^ (n + 1)) 600 ≤ (600 : ℚ) := min_le_right _ _
      push_cast
      linarith

/-- A node whose breaker has re-opened 1023 times fails once more, and counting that raises. -/
theorem raises_in_the_end : ¬ ∀ (b : CircuitBreaker) (f : FaultTracker) (es : List MonitorEvent),
    Along.All step Sound (start b f) es := by
  intro h
  obtain ⟨n, hn⟩ : ∃ n : ℕ, n = 1023 := ⟨_, rfl⟩
  obtain ⟨st, hst, -, -, hopen, htrips, huntil⟩ := trips_failures n hn.le
  have hsound := h {} {} (failures (n + 3) ++ [.failure "node:n" (1000 * ((n : ℚ) + 3))])
  have hlast := (failure_sound_iff _ _ _).mp (Along.all_concat.mp hsound).2
  have hfew := hlast.2 (by rw [hst]; exact hopen) (by rw [hst]; exact huntil)
  rw [hst, htrips, hn] at hfew
  exact absurd hfew (lt_irrefl 1023)

end Monitor

end Secdogie.Inference
