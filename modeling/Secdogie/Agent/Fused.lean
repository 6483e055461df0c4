/-
# `Secdogie.Agent.Fused` — whether a fusion depends on the order of the readings

`fuse` compares readings by keys that may be tied, names the two of a conflict
by their places and hashes names that may hold its separators.  What it sets
aside, and that each disagreement has a conflict, holds in any case
(`parts_perm`, `Surfaces`); that the result is the same for each order, and
that the hash tells the nodes, holds exactly under `Settled` (`fuses_iff`).
-/
import Secdogie.Agent.NodeLines

namespace Secdogie.Agent.Fusion

open scoped List

variable {cfg : FusionConfig} {sha256 : String → String} {obs obs' : List Observation}
  {w : ℤ × ℤ} {r : FusionResult} {a b o p q : Observation}

/-! ## The readings that are fused -/

def freshestAt (w : ℤ × ℤ) (obs : List Observation) : ℤ :=
  ((obs.filter fun o => o.window = w).map Observation.generation).max?.getD 0

/-- The freshest readings of a window. -/
def freshAt (w : ℤ × ℤ) (obs : List Observation) : List Observation :=
  obs.filter fun o => o.window = w ∧ o.generation = freshestAt w obs

theorem freshestAt_perm (h : obs.Perm obs') : freshestAt w obs = freshestAt w obs' := by
  rw [freshestAt, freshestAt, max?_perm ((h.filter _).map _)]

theorem freshAt_perm (h : obs.Perm obs') : (freshAt w obs).Perm (freshAt w obs') := by
  rw [freshAt, freshAt, freshestAt_perm h]
  exact h.filter _

theorem le_freshestAt (ho : o ∈ obs) (hw : o.window = w) : o.generation ≤ freshestAt w obs := by
  have hin : o.generation ∈ (obs.filter fun o => o.window = w).map Observation.generation :=
    List.mem_map_of_mem (List.mem_filter.mpr ⟨ho, decide_eq_true hw⟩)
  obtain ⟨n, hn⟩ := Option.isSome_iff_exists.mp (List.isSome_max?_of_mem hin)
  rw [freshestAt, hn, Option.getD_some]
  exact (List.max?_eq_some_iff.mp hn).2 _ hin

theorem exists_freshest (ho : o ∈ obs) (hw : o.window = w) :
    ∃ x ∈ obs, x.window = w ∧ x.generation = freshestAt w obs := by
  have hin : o.generation ∈ (obs.filter fun o => o.window = w).map Observation.generation :=
    List.mem_map_of_mem (List.mem_filter.mpr ⟨ho, decide_eq_true hw⟩)
  obtain ⟨n, hn⟩ := Option.isSome_iff_exists.mp (List.isSome_max?_of_mem hin)
  obtain ⟨x, hx, hgen⟩ := List.mem_map.mp (List.max?_eq_some_iff.mp hn).1
  obtain ⟨hx, hxw⟩ := List.mem_filter.mp hx
  refine ⟨x, hx, of_decide_eq_true hxw, ?_⟩
  rw [freshestAt, hn, Option.getD_some, hgen]

theorem mem_freshAt :
    o ∈ freshAt w obs ↔
      o ∈ obs ∧ o.window = w ∧ ∀ x ∈ obs, x.window = w → x.generation ≤ o.generation := by
  rw [freshAt, List.mem_filter, decide_eq_true_iff]
  constructor
  · rintro ⟨ho, hw, hgen⟩
    exact ⟨ho, hw, fun x hx hxw => hgen ▸ le_freshestAt hx hxw⟩
  · rintro ⟨ho, hw, hmax⟩
    obtain ⟨x, hx, hxw, hgen⟩ := exists_freshest ho hw
    exact ⟨ho, hw, le_antisymm (le_freshestAt ho hw) (hgen ▸ hmax x hx hxw)⟩

/-! ## The result -/

def foreignTo (w : ℤ × ℤ) (obs : List Observation) : List Observation :=
  obs.filter fun o => o.window ≠ w

def staleAt (w : ℤ × ℤ) (obs : List Observation) : List Observation :=
  obs.filter fun o => o.window = w ∧ o.generation < freshestAt w obs

/-- The source that stands for the window in a conflict. -/
def voice (w : ℤ × ℤ) (obs : List Observation) : Source :=
  ((_pick (obs.filter fun o => o.window = w) .ax).or (obs.filter fun o => o.window = w).head?).elim
    .fused Observation.source

def boxed (w : ℤ × ℤ) (obs : List Observation) : List Observation :=
  (freshAt w obs).filter fun o => o.geometry.valid

/-- The conflicts, as they are found. -/
def found (cfg : FusionConfig) (w : ℤ × ℤ) (obs : List Observation)
    (late : List ObservationConflict) : List ObservationConflict :=
  (foreignTo w obs).map (windowConflict w (voice w obs)) ++
    (staleAt w obs).map (generationConflict (freshestAt w obs)) ++
    (pairs (boxed w obs)).filterMap (fun p => geometryConflict cfg p.1 p.2) ++ late

def confidenceAt (cfg : FusionConfig) (w : ℤ × ℤ) (obs : List Observation)
    (late : List ObservationConflict) : ℚ :=
  max cfg.min_confidence (min 1
    (((freshAt w obs).map Observation.confidence).max?.getD 0 *
      cfg.conflict_penalty ^ ((found cfg w obs late).map ObservationConflict.kind).dedup.length))

def nodesAt (w : ℤ × ℤ) (obs : List Observation) : List SemanticNode :=
  (_pick (freshAt w obs) .ax).elim [] Observation.semantic_nodes

def visualAt (w : ℤ × ℤ) (obs : List Observation) : Option VisualReference :=
  (_pick (freshAt w obs) .dib).bind Observation.visual_reference

/-- The result for a window. -/
def resultAt (cfg : FusionConfig) (sha256 : String → String) (w : ℤ × ℤ) (obs : List Observation)
    (late : List ObservationConflict) : FusionResult where
  fused :=
    { source := .fused
      window_id := w.1
      app_pid := w.2
      generation := freshestAt w obs
      timestamp := ((freshAt w obs).map Observation.timestamp).max?.getD 0
      confidence := confidenceAt cfg w obs late
      geometry := fused_geometry (freshAt w obs)
      semantic_nodes := nodesAt w obs
      visual_reference := visualAt w obs
      content_hash := _content_hash_for sha256 Source.fused.text w (freshestAt w obs)
        (fused_geometry (freshAt w obs)) (nodesAt w obs) (visualAt w obs) }
  conflicts := (found cfg w obs late).insertionSort fun a b => a.key ≤ b.key
  contributors := freshAt w obs
  stale := staleAt w obs
  foreign := foreignTo w obs

theorem filter_filter_window (f : ℤ → Bool) (obs : List Observation) :
    ((obs.filter fun o => o.window = w).filter fun o => f o.generation) =
      obs.filter fun o => o.window = w ∧ f o.generation = true := by
  rw [List.filter_filter]
  refine List.filter_congr fun o _ => ?_
  rw [Bool.decide_and, Bool.and_comm, Bool.decide_eq_true]

theorem fuseAt_eq :
    fuseAt cfg sha256 w obs =
      (timeConflict cfg (freshAt w obs)).map (resultAt cfg sha256 w obs) := by
  have hfresh : ((obs.filter fun o => o.window = w).filter fun o => decide (o.generation =
      ((obs.filter fun o => o.window = w).map Observation.generation).max?.getD 0)) =
      freshAt w obs :=
    (filter_filter_window (fun n => decide (n = freshestAt w obs)) obs).trans
      (by simp only [decide_eq_true_iff]; rfl)
  have hstale : ((obs.filter fun o => o.window = w).filter fun o => decide (o.generation <
      ((obs.filter fun o => o.window = w).map Observation.generation).max?.getD 0)) =
      staleAt w obs :=
    (filter_filter_window (fun n => decide (n < freshestAt w obs)) obs).trans
      (by simp only [decide_eq_true_iff]; rfl)
  rw [fuseAt]
  dsimp only
  rw [hfresh, hstale]
  cases timeConflict cfg (freshAt w obs) <;> rfl

theorem fuse_ok_iff :
    fuse cfg sha256 obs = .ok r ↔
      ∃ o late, obs.argmax trust = some o ∧ timeConflict cfg (freshAt o.window obs) = .ok late ∧
        resultAt cfg sha256 o.window obs late = r := by
  rw [fuse, _anchor_window]
  rcases hbest : obs.argmax trust with - | o
  · simp
  · simp only [Option.map_some, fuseAt_eq]
    rcases htime : timeConflict cfg (freshAt o.window obs) with e | late
    · constructor
      · intro h
        cases h
      · rintro ⟨o', late, ho, hlate, -⟩
        obtain rfl := Option.some.inj ho
        rw [htime] at hlate
        cases hlate
    · constructor
      · intro h
        exact ⟨o, late, rfl, htime, Except.ok.inj h⟩
      · rintro ⟨o', late', ho, hlate, rfl⟩
        obtain rfl := Option.some.inj ho
        rw [htime] at hlate
        obtain rfl := Except.ok.inj hlate
        rfl

/-! ## The times -/

theorem mem_timesOf {l : List Observation} {t : ℚ} :
    t ∈ timesOf l ↔ ∃ o ∈ l, o.timestamp = t ∧ t ≠ 0 := by
  rw [timesOf, List.mem_filter, List.mem_map, decide_eq_true_iff]
  constructor
  · rintro ⟨⟨o, ho, ht⟩, hne⟩
    exact ⟨o, ho, ht, hne⟩
  · rintro ⟨o, ho, ht, hne⟩
    exact ⟨⟨o, ho, ht⟩, hne⟩

theorem timeConflict_perm {l l' : List Observation} (h : l.Perm l') :
    timeConflict cfg l = timeConflict cfg l' := by
  have htimes : (timesOf l).Perm (timesOf l') := (h.map _).filter _
  simp only [timeConflict]
  rw [max?_perm htimes, min?_perm htimes, htimes.length_eq]

/-- The times of a list where two differ. -/
theorem times_span {l : List Observation} {s t : ℚ} (hs : s ∈ timesOf l) (ht : t ∈ timesOf l)
    (hne : s ≠ t) :
    ∃ newest oldest, (timesOf l).max? = some newest ∧ (timesOf l).min? = some oldest ∧
      2 ≤ (timesOf l).length ∧ s - t ≤ newest - oldest := by
  obtain ⟨newest, hmax⟩ := Option.isSome_iff_exists.mp (List.isSome_max?_of_mem hs)
  obtain ⟨oldest, hmin⟩ := Option.isSome_iff_exists.mp (List.isSome_min?_of_mem hs)
  refine ⟨newest, oldest, hmax, hmin, ?_, ?_⟩
  · by_contra hshort
    obtain ⟨x, hx⟩ : ∃ x, timesOf l = [x] :=
      List.length_eq_one_iff.mp (le_antisymm (by omega) (List.length_pos_of_mem hs))
    rw [hx, List.mem_singleton] at hs ht
    exact hne (hs.trans ht.symm)
  · have h1 := (List.max?_eq_some_iff.mp hmax).2 s hs
    have h2 := (List.min?_eq_some_iff.mp hmin).2 t ht
    linarith

theorem timeConflict_kind {l : List Observation} {late : List ObservationConflict}
    (h : timeConflict cfg l = .ok late) :
    late = [] ∨ ∃ c, late = [c] ∧ c.kind = CONFLICT_TIME := by
  unfold timeConflict at h
  dsimp only at h
  split at h
  · split_ifs at h
    · exact .inl (Except.ok.inj h).symm
    · exact .inr ⟨_, (Except.ok.inj h).symm, rfl⟩
    · exact .inl (Except.ok.inj h).symm
  · exact .inl (Except.ok.inj h).symm

/-- Times further apart than is allowed have a conflict. -/
theorem timeConflict_surfaces {l : List Observation} {late : List ObservationConflict}
    (h : timeConflict cfg l = .ok late) (hp : p ∈ l) (hq : q ∈ l) (hpt : p.timestamp ≠ 0)
    (hqt : q.timestamp ≠ 0) (hne : p.timestamp ≠ q.timestamp)
    (hfar : cfg.time_skew_ms < (p.timestamp - q.timestamp) * 1000) :
    ∃ c ∈ late, c.kind = CONFLICT_TIME := by
  obtain ⟨newest, oldest, hmax, hmin, hlen, hspan⟩ :=
    times_span (mem_timesOf.mpr ⟨p, hp, rfl, hpt⟩) (mem_timesOf.mpr ⟨q, hq, rfl, hqt⟩) hne
  have hover : cfg.time_skew_ms < (newest - oldest) * 1000 := by linarith
  simp only [timeConflict] at h
  rw [hmax, hmin] at h
  dsimp only at h
  rw [if_neg (by omega), if_pos hover] at h
  split_ifs at h
  obtain rfl := Except.ok.inj h
  exact ⟨_, List.mem_singleton_self _, rfl⟩

/-- The only division by zero. -/
theorem timeConflict_ok_iff {l : List Observation} :
    (∃ late, timeConflict cfg l = .ok late) ↔
      cfg.time_skew_ms ≠ 0 ∨
        ∀ p ∈ l, ∀ q ∈ l, p.timestamp ≠ 0 → q.timestamp ≠ 0 → p.timestamp = q.timestamp := by
  constructor
  · rintro ⟨late, h⟩
    by_contra hbad
    push Not at hbad
    obtain ⟨hzero, p, hp, q, hq, hpt, hqt, hne⟩ := hbad
    wlog hlt : q.timestamp < p.timestamp generalizing p q
    · exact this q hq p hp hqt hpt hne.symm (lt_of_le_of_ne (not_lt.mp hlt) hne)
    obtain ⟨newest, oldest, hmax, hmin, hlen, hspan⟩ :=
      times_span (mem_timesOf.mpr ⟨p, hp, rfl, hpt⟩) (mem_timesOf.mpr ⟨q, hq, rfl, hqt⟩) hne
    simp only [timeConflict] at h
    rw [hmax, hmin] at h
    dsimp only at h
    rw [if_neg (by omega), hzero, if_pos (by linarith), if_pos (by norm_num)] at h
    cases h
  · intro hok
    simp only [timeConflict]
    split
    · next newest oldest hmax hmin =>
        split_ifs with hfew hover hzero
        · exact ⟨_, rfl⟩
        · obtain ⟨p, hp, hpt, hpne⟩ := mem_timesOf.mp (List.max?_eq_some_iff.mp hmax).1
          obtain ⟨q, hq, hqt, hqne⟩ := mem_timesOf.mp (List.min?_eq_some_iff.mp hmin).1
          have hskew : cfg.time_skew_ms = 0 := by linarith
          rcases hok with hok | hok
          · exact absurd hskew hok
          · have heq := hok p hp q hq (hpt ▸ hpne) (hqt ▸ hqne)
            rw [hskew, ← hpt, ← hqt, heq, sub_self, zero_mul] at hover
            exact absurd hover (lt_irrefl 0)
        · exact ⟨_, rfl⟩
        · exact ⟨_, rfl⟩
    · exact ⟨_, rfl⟩

/-! ## The conflicts -/

theorem geometryConflict_some {c : ObservationConflict} :
    geometryConflict cfg p q = some c ↔
      Disagree cfg p q ∧
        c = { kind := CONFLICT_GEOMETRY
              a_source := p.source.text
              b_source := q.source.text
              detail := overlapText cfg (p.geometry.iou q.geometry)
              severity := 1 - p.geometry.iou q.geometry } := by
  rw [geometryConflict]
  split_ifs with h
  · rw [Option.some.injEq, eq_comm]
    exact ⟨fun hc => ⟨h, hc⟩, fun hc => hc.2⟩
  · exact ⟨nofun, fun hc => absurd hc.1 h⟩

theorem mem_found {late : List ObservationConflict} {c : ObservationConflict} :
    c ∈ found cfg w obs late ↔
      (∃ o ∈ foreignTo w obs, c = windowConflict w (voice w obs) o) ∨
      (∃ o ∈ staleAt w obs, c = generationConflict (freshestAt w obs) o) ∨
      (∃ p q, [p, q] <+ boxed w obs ∧ geometryConflict cfg p q = some c) ∨ c ∈ late := by
  simp only [found, List.mem_append, List.mem_map, List.mem_filterMap, Prod.exists, mem_pairs,
    or_assoc, eq_comm (a := c)]

theorem Source.text_inj {s t : Source} (h : s.text = t.text) : s = t := by
  revert h
  cases s <;> cases t <;> decide

/-- Where the text of a conflict of boxes tells the overlap, two conflicts of
one key are one. -/
theorem eq_of_key {late : List ObservationConflict}
    (hlate : late = [] ∨ ∃ c, late = [c] ∧ c.kind = CONFLICT_TIME)
    (hoverlap : ∀ p q p' q', [p, q] <+ boxed w obs → [p', q'] <+ boxed w obs →
      Disagree cfg p q → Disagree cfg p' q' → p.source = p'.source →
      overlapText cfg (p.geometry.iou q.geometry) = overlapText cfg (p'.geometry.iou q'.geometry) →
      p.geometry.iou q.geometry = p'.geometry.iou q'.geometry) :
    ∀ c ∈ found cfg w obs late, ∀ c' ∈ found cfg w obs late, c.key = c'.key → c = c' := by
  intro c hc c' hc' hkey
  obtain ⟨hkind, ha, hb, hdetail⟩ : c.kind = c'.kind ∧ c.a_source = c'.a_source ∧
      c.b_source = c'.b_source ∧ c.detail = c'.detail := by
    simpa [ObservationConflict.key, Prod.ext_iff] using hkey
  suffices hsev : c.severity = c'.severity by
    cases c; cases c'
    simp only at hkind ha hb hdetail hsev
    simp only [hkind, ha, hb, hdetail, hsev]
  have htime : ∀ x ∈ late, x.kind = CONFLICT_TIME := by
    intro x hx
    rcases hlate with rfl | ⟨y, rfl, hy⟩
    · simp at hx
    · rwa [List.mem_singleton.mp hx]
  have hkinds : ∀ x ∈ found cfg w obs late,
      (x.kind = CONFLICT_WINDOW_IDENTITY ∧ x.severity = 1) ∨
      (x.kind = CONFLICT_GENERATION ∧ x.severity = 8 / 10) ∨
      (x.kind = CONFLICT_GEOMETRY ∧ ∃ p q, [p, q] <+ boxed w obs ∧
        geometryConflict cfg p q = some x) ∨ (x.kind = CONFLICT_TIME ∧ x ∈ late) := by
    intro x hx
    rcases mem_found.mp hx with ⟨o, -, rfl⟩ | ⟨o, -, rfl⟩ | ⟨p, q, hpq, hx⟩ | hx
    · exact .inl ⟨rfl, rfl⟩
    · exact .inr (.inl ⟨rfl, rfl⟩)
    · refine .inr (.inr (.inl ⟨?_, p, q, hpq, hx⟩))
      rw [(geometryConflict_some.mp hx).2]
    · exact .inr (.inr (.inr ⟨htime x hx, hx⟩))
  have hapart : CONFLICT_WINDOW_IDENTITY ≠ CONFLICT_GENERATION ∧
      CONFLICT_WINDOW_IDENTITY ≠ CONFLICT_GEOMETRY ∧ CONFLICT_WINDOW_IDENTITY ≠ CONFLICT_TIME ∧
      CONFLICT_GENERATION ≠ CONFLICT_GEOMETRY ∧ CONFLICT_GENERATION ≠ CONFLICT_TIME ∧
      CONFLICT_GEOMETRY ≠ CONFLICT_TIME := by decide
  obtain ⟨h12, h13, h14, h23, h24, h34⟩ := hapart
  rcases hkinds c hc with ⟨h, hs⟩ | ⟨h, hs⟩ | ⟨h, p, q, hpq, hx⟩ | ⟨h, hx⟩ <;>
    rcases hkinds c' hc' with ⟨h', hs'⟩ | ⟨h', hs'⟩ | ⟨h', p', q', hpq', hx'⟩ | ⟨h', hx'⟩ <;>
    rw [h, h'] at hkind <;>
    first
      | exact absurd hkind (by assumption)
      | exact absurd hkind.symm (by assumption)
      | skip
  · rw [hs, hs']
  · rw [hs, hs']
  · obtain ⟨hdis, rfl⟩ := geometryConflict_some.mp hx
    obtain ⟨hdis', rfl⟩ := geometryConflict_some.mp hx'
    simp only at ha hdetail ⊢
    rw [hoverlap p q p' q' hpq hpq' hdis hdis' (Source.text_inj ha) hdetail]
  · rcases hlate with rfl | ⟨y, rfl, -⟩
    · simp at hx
    · rw [List.mem_singleton.mp hx, List.mem_singleton.mp hx']

/-! ## What is asked of a fusion -/

/-- The same but for the order of what was set aside or not. -/
structure SameFusion (r r' : FusionResult) : Prop where
  fused : r'.fused = r.fused
  conflicts : r'.conflicts = r.conflicts
  contributors : r'.contributors.Perm r.contributors
  stale : r'.stale.Perm r.stale
  foreign : r'.foreign.Perm r.foreign

/-- What is fused comes from the freshest readings of the most trusted window. -/
structure Sourced (obs : List Observation) (r : FusionResult) : Prop where
  anchored : ∃ o, Top trust obs o ∧ o.window = r.fused.window
  contributors : ∀ o, o ∈ r.contributors ↔ o ∈ obs ∧ o.window = r.fused.window ∧
    ∀ x ∈ obs, x.window = r.fused.window → x.generation ≤ o.generation
  generation : ∀ o ∈ r.contributors, o.generation = r.fused.generation
  geometry : r.fused.geometry = {} ∨ ∃ o ∈ r.contributors, o.geometry = r.fused.geometry
  nodes : r.fused.semantic_nodes = [] ∨
    ∃ o ∈ r.contributors, o.semantic_nodes = r.fused.semantic_nodes
  visual : r.fused.visual_reference = none ∨
    ∃ o ∈ r.contributors, o.visual_reference = r.fused.visual_reference

/-- What is set aside or disagrees has a conflict. -/
structure Surfaces (cfg : FusionConfig) (r : FusionResult) : Prop where
  foreign : ∀ o ∈ r.foreign, ∃ source, windowConflict r.fused.window source o ∈ r.conflicts
  stale : ∀ o ∈ r.stale, generationConflict r.fused.generation o ∈ r.conflicts
  boxes : ∀ p q, [p, q] <+ r.contributors → p.geometry.valid = true → q.geometry.valid = true →
    Disagree cfg p q → ∃ c ∈ r.conflicts, geometryConflict cfg p q = some c
  times : ∀ p ∈ r.contributors, ∀ q ∈ r.contributors, p.timestamp ≠ 0 → q.timestamp ≠ 0 →
    p.timestamp ≠ q.timestamp → cfg.time_skew_ms < (p.timestamp - q.timestamp) * 1000 →
    ∃ c ∈ r.conflicts, c.kind = CONFLICT_TIME

/-- The hash tells the window, the generation, the box and the nodes. -/
def Pins (sha256 : String → String) (r : FusionResult) : Prop :=
  ∀ cfg' obs' r', fuse cfg' sha256 obs' = .ok r' → r'.fused.content_hash = r.fused.content_hash →
    r'.fused.window = r.fused.window ∧ r'.fused.generation = r.fused.generation ∧
      r'.fused.geometry = r.fused.geometry ∧
        r'.fused.semantic_nodes.map SemanticNode.key = r.fused.semantic_nodes.map SemanticNode.key

structure Fuses (cfg : FusionConfig) (sha256 : String → String) (obs : List Observation)
    (r : FusionResult) : Prop where
  order_free : ∀ obs' : List Observation, obs'.Perm obs →
    ∃ r', fuse cfg sha256 obs' = .ok r' ∧ SameFusion r r'
  parts : (r.contributors ++ r.stale ++ r.foreign).Perm obs
  sourced : Sourced obs r
  surfaces : Surfaces cfg r
  pins : Pins sha256 r

/-! ## The condition -/

/-- One of the freshest of a window that a most trusted reading names. -/
def Fresh (obs : List Observation) (o : Observation) : Prop :=
  o ∈ obs ∧ (∃ l, Top trust obs l ∧ l.window = o.window) ∧
    ∀ x ∈ obs, x.window = o.window → x.generation ≤ o.generation

/-- The greatest by the key of the fresh ones that have the property. -/
def Best {κ : Type} [LE κ] (key : Observation → κ) (has : Observation → Prop)
    (obs : List Observation) (o : Observation) : Prop :=
  (Fresh obs o ∧ has o) ∧ ∀ x, Fresh obs x → has x → key x ≤ key o

/-- Two fresh ones whose boxes are too far apart. -/
def Apart (cfg : FusionConfig) (obs : List Observation) (p q : Observation) : Prop :=
  [p, q] <+~ obs ∧ Fresh obs p ∧ Fresh obs q ∧ p.geometry.valid = true ∧ q.geometry.valid = true ∧
    Disagree cfg p q

/-- The nodes and the bitmap that the fresh ones give. -/
def Carried (obs : List Observation) (nodes : List SemanticNode)
    (visual : Option VisualReference) : Prop :=
  ((∃ o, Best favour (·.source = .ax) obs o ∧ nodes = o.semantic_nodes) ∨
    (∀ o, Fresh obs o → o.source ≠ .ax) ∧ nodes = []) ∧
  ((∃ o, Best favour (·.source = .dib) obs o ∧ visual = o.visual_reference) ∨
    (∀ o, Fresh obs o → o.source ≠ .dib) ∧ visual = none)

structure Settled (cfg : FusionConfig) (obs : List Observation) : Prop where
  one_window : ∀ a b, Top trust obs a → Top trust obs b → a.window = b.window
  /-- No reading is set aside as foreign, or the anchor's window has one source to name. -/
  one_voice : ∀ a, Top trust obs a →
    (∀ o ∈ obs, o.window = a.window) ∨ (∃ o ∈ obs, o.window = a.window ∧ o.source = .ax) ∨
      ∀ o ∈ obs, ∀ o' ∈ obs, o.window = a.window → o'.window = a.window → o.source = o'.source
  one_sense : ∀ p q, Apart cfg obs p q → p.source = q.source
  one_overlap : ∀ p q p' q', Apart cfg obs p q → Apart cfg obs p' q' → p.source = p'.source →
    overlapText cfg (p.geometry.iou q.geometry) = overlapText cfg (p'.geometry.iou q'.geometry) →
    p.geometry.iou q.geometry = p'.geometry.iou q'.geometry
  one_tree : ∀ a b, Best favour (·.source = .ax) obs a → Best favour (·.source = .ax) obs b →
    a.semantic_nodes = b.semantic_nodes
  one_bitmap : ∀ a b, Best favour (·.source = .dib) obs a → Best favour (·.source = .dib) obs b →
    a.visual_reference = b.visual_reference
  one_box : ∀ a b, Best boxTrust (·.geometry.valid = true) obs a →
    Best boxTrust (·.geometry.valid = true) obs b → a.geometry = b.geometry
  timed : cfg.time_skew_ms ≠ 0 ∨ ∀ p q, Fresh obs p → Fresh obs q → p.timestamp ≠ 0 →
    q.timestamp ≠ 0 → p.timestamp = q.timestamp
  plain : ∀ nodes visual, Carried obs nodes visual → Plain visual nodes

/-! ## What holds in any case -/

theorem parts_perm (w : ℤ × ℤ) (obs : List Observation) :
    (freshAt w obs ++ staleAt w obs ++ foreignTo w obs).Perm obs := by
  have hsplit := List.filter_append_perm (fun o : Observation => decide (o.window = w)) obs
  have hforeign : (obs.filter fun o => !decide (o.window = w)) = foreignTo w obs :=
    List.filter_congr fun o _ => (decide_not ..).symm
  have hkin := List.filter_append_perm (fun o : Observation => decide (o.generation = freshestAt w obs))
    (obs.filter fun o => o.window = w)
  have hfresh : ((obs.filter fun o => o.window = w).filter fun o =>
      decide (o.generation = freshestAt w obs)) = freshAt w obs :=
    (filter_filter_window (fun n => decide (n = freshestAt w obs)) obs).trans
      (by simp only [decide_eq_true_iff]; rfl)
  have hstale : ((obs.filter fun o => o.window = w).filter fun o =>
      !decide (o.generation = freshestAt w obs)) = staleAt w obs := by
    rw [staleAt, List.filter_filter]
    refine List.filter_congr fun o ho => ?_
    by_cases hw : o.window = w
    · have hle := le_freshestAt ho hw
      have hne : ¬ o.generation = freshestAt w obs ↔ o.generation < freshestAt w obs := by omega
      simp [hw, ← hne]
    · simp [hw]
  rw [hfresh, hstale] at hkin
  rw [hforeign] at hsplit
  exact (hkin.append_right _).trans hsplit

theorem pick_mem {l : List Observation} {source : Source} (h : _pick l source = some o) :
    o ∈ l ∧ o.source = source := by
  have hin := List.argmax_mem h
  exact ⟨List.mem_of_mem_filter hin, of_decide_eq_true (List.mem_filter.mp hin).2⟩

theorem fused_geometry_eq (l : List Observation) :
    fused_geometry l =
      ((l.filter fun o => o.geometry.valid).argmax boxTrust).elim {} Observation.geometry := by
  rw [fused_geometry, ← head_insertionSort_desc]

theorem resultAt_window {late : List ObservationConflict} :
    (resultAt cfg sha256 w obs late).fused.window = w := rfl

theorem sourced {late : List ObservationConflict} (ho : obs.argmax trust = some o) :
    Sourced obs (resultAt cfg sha256 o.window obs late) where
  anchored := ⟨o, top_of_argmax ho, rfl⟩
  contributors x := mem_freshAt
  generation x hx := (of_decide_eq_true (List.mem_filter.mp hx).2).2
  geometry := by
    simp only [resultAt, fused_geometry_eq]
    rcases hbest : ((freshAt o.window obs).filter fun o => o.geometry.valid).argmax boxTrust with - | x
    · rw [hbest]
      exact .inl rfl
    · rw [hbest]
      exact .inr ⟨x, List.mem_of_mem_filter (List.argmax_mem hbest), rfl⟩
  nodes := by
    simp only [resultAt, nodesAt]
    rcases hpick : _pick (freshAt o.window obs) .ax with - | x
    · exact .inl rfl
    · exact .inr ⟨x, (pick_mem hpick).1, rfl⟩
  visual := by
    simp only [resultAt, visualAt]
    rcases hpick : _pick (freshAt o.window obs) .dib with - | x
    · exact .inl rfl
    · exact .inr ⟨x, (pick_mem hpick).1, rfl⟩

theorem mem_conflicts {late : List ObservationConflict} {c : ObservationConflict} :
    c ∈ (resultAt cfg sha256 w obs late).conflicts ↔ c ∈ found cfg w obs late :=
  List.mem_insertionSort _

theorem surfaces {late : List ObservationConflict}
    (hlate : timeConflict cfg (freshAt w obs) = .ok late) :
    Surfaces cfg (resultAt cfg sha256 w obs late) where
  foreign x hx := ⟨voice w obs, mem_conflicts.mpr (mem_found.mpr (.inl ⟨x, hx, rfl⟩))⟩
  stale x hx := mem_conflicts.mpr (mem_found.mpr (.inr (.inl ⟨x, hx, rfl⟩)))
  boxes p q hpq hp hq hfar := by
    refine ⟨_, mem_conflicts.mpr (mem_found.mpr (.inr (.inr (.inl ⟨p, q, ?_, if_pos hfar⟩)))),
      if_pos hfar⟩
    have hkept := hpq.filter fun o => o.geometry.valid
    have hpair : [p, q].filter (fun o => o.geometry.valid) = [p, q] := by simp [hp, hq]
    rw [hpair] at hkept
    exact hkept
  times p hp q hq hpt hqt hne hfar := by
    obtain ⟨c, hc, hkind⟩ := timeConflict_surfaces hlate hp hq hpt hqt hne hfar
    exact ⟨c, mem_conflicts.mpr (mem_found.mpr (.inr (.inr (.inr hc)))), hkind⟩

/-! ## What the hash tells -/

/-- What is fused can have any nodes and any bitmap. -/
theorem exists_fused (g : ℤ) {box : Geometry} (hbox : box.valid = true ∨ box = {})
    (nodes : List SemanticNode) (visual : Option VisualReference) :
    ∃ obs r, fuse cfg sha256 obs = .ok r ∧ r.fused.window = w ∧ r.fused.generation = g ∧
      r.fused.geometry = box ∧ r.fused.semantic_nodes = nodes ∧ r.fused.visual_reference = visual := by
  let ax : Observation :=
    { source := .ax, window_id := w.1, app_pid := w.2, generation := g, confidence := 1
      geometry := box, semantic_nodes := nodes }
  let dib : Observation :=
    { source := .dib, window_id := w.1, app_pid := w.2, generation := g, visual_reference := visual }
  have hle : trust dib ≤ trust ax := by
    rw [trust, trust, Prod.Lex.toLex_le_toLex]
    exact .inl (by norm_num [ax, dib])
  have hbest : [ax, dib].argmax trust = some ax :=
    argmax_cons_of_le fun x hx => by rwa [List.mem_singleton.mp hx]
  have hfreshest : freshestAt w [ax, dib] = g := by
    simp [freshestAt, Observation.window, ax, dib]
  have hfresh : freshAt w [ax, dib] = [ax, dib] := by
    rw [freshAt, hfreshest]
    simp [Observation.window, ax, dib]
  have htime : timeConflict cfg [ax, dib] = .ok [] := by
    simp [timeConflict, timesOf, ax, dib]
  refine ⟨[ax, dib], _, fuse_ok_iff.mpr ⟨ax, [], hbest, ?_, rfl⟩, rfl, hfreshest, ?_, ?_, ?_⟩
  · exact (congrArg (timeConflict cfg) hfresh).trans htime
  · change fused_geometry (freshAt w [ax, dib]) = box
    rw [hfresh, fused_geometry_eq]
    have hdib : dib.geometry.valid = false := rfl
    rcases hbox with hbox | rfl
    · have hax : ax.geometry.valid = true := hbox
      simp [hdib, hax, ax]
    · have hax : ax.geometry.valid = false := rfl
      simp [hdib, hax]
  · change nodesAt w [ax, dib] = nodes
    rw [nodesAt, hfresh, _pick]
    simp [ax, dib]
  · change visualAt w [ax, dib] = visual
    rw [visualAt, hfresh, _pick]
    simp [ax, dib]

theorem valid_or_empty (l : List Observation) :
    (fused_geometry l).valid = true ∨ fused_geometry l = {} := by
  rw [fused_geometry_eq]
  rcases hbest : (l.filter fun o => o.geometry.valid).argmax boxTrust with - | x
  · rw [hbest]
    exact .inr rfl
  · rw [hbest]
    exact .inl (List.mem_filter.mp (List.argmax_mem hbest)).2

theorem content_hash_eq (h : fuse cfg sha256 obs = .ok r) :
    r.fused.content_hash = _content_hash_for sha256 Source.fused.text r.fused.window
      r.fused.generation r.fused.geometry r.fused.semantic_nodes r.fused.visual_reference := by
  obtain ⟨o, late, -, -, rfl⟩ := fuse_ok_iff.mp h
  rfl

theorem pins_iff (hsha : Function.Injective sha256) (h : fuse cfg sha256 obs = .ok r) :
    Pins sha256 r ↔ Plain r.fused.visual_reference r.fused.semantic_nodes := by
  have htext : ∀ cfg' obs' r', fuse cfg' sha256 obs' = .ok r' →
      (r'.fused.content_hash = r.fused.content_hash ↔
        head r'.fused.window r'.fused.generation r'.fused.geometry ++
            tail r'.fused.semantic_nodes r'.fused.visual_reference =
          head r.fused.window r.fused.generation r.fused.geometry ++
            tail r.fused.semantic_nodes r.fused.visual_reference) := by
    intro cfg' obs' r' h'
    rw [content_hash_eq h, content_hash_eq h', _content_hash_for, _content_hash_for, hsha.eq_iff,
      ← String.toList_inj, text_toList, text_toList, List.append_cancel_left_eq, List.cons.injEq]
    exact ⟨fun heq => heq.2, fun heq => ⟨rfl, heq⟩⟩
  rw [plain_iff]
  constructor
  · intro hpins nodes' visual' htail
    obtain ⟨o, late, -, -, hr⟩ := fuse_ok_iff.mp h
    have hbox : r.fused.geometry.valid = true ∨ r.fused.geometry = {} := by
      rw [← hr]
      exact valid_or_empty _
    obtain ⟨obs', r', h', hw, hg, hb, hn, hv⟩ :=
      @exists_fused cfg sha256 r.fused.window r.fused.generation _ hbox nodes' visual'
    have hsame : r'.fused.content_hash = r.fused.content_hash := by
      rw [htext cfg obs' r' h', hw, hg, hb, hn, hv, htail]
    have hkeys := (hpins cfg obs' r' h' hsame).2.2.2
    rwa [hn] at hkeys
  · intro hplain cfg' obs' r' h' hsame
    obtain ⟨hw, hg, hb, ht⟩ :=
      head_inj (tail_head _ _) (tail_head _ _) ((htext cfg' obs' r' h').mp hsame)
    exact ⟨hw, hg, hb, hplain _ _ ht⟩

/-! ## Readings of one window -/

section

variable {κ : Type} [LinearOrder κ] {key : Observation → κ} {late : List ObservationConflict}

/-- What a greatest fresh reading gives is the same for each order exactly
where the greatest agree on it. -/
theorem fresh_agree_iff {γ : Type} (d : γ) (f : Observation → γ) (sel : Observation → Bool) :
    (∀ obs' : List Observation, obs'.Perm obs →
      (((freshAt w obs').filter sel).argmax key).elim d f =
        (((freshAt w obs).filter sel).argmax key).elim d f) ↔
      ∀ a b, Top key ((freshAt w obs).filter sel) a → Top key ((freshAt w obs).filter sel) b →
        f a = f b := by
  rw [← argmax_agree_iff d f]
  constructor
  · intro h l' hl'
    rw [freshAt, List.filter_filter] at hl'
    obtain ⟨whole, hwhole, rfl⟩ := exists_perm_filter _ hl'
    have hfresh : (freshAt w whole).filter sel = whole.filter fun o =>
        sel o && decide (o.window = w ∧ o.generation = freshestAt w obs) := by
      rw [freshAt, freshestAt_perm hwhole, List.filter_filter]
    rw [← hfresh]
    exact h whole hwhole
  · intro h obs' hobs
    exact h _ ((freshAt_perm hobs).filter sel)

theorem voice_ax (h : ∃ o ∈ obs, o.window = w ∧ o.source = .ax) : voice w obs = .ax := by
  obtain ⟨o, ho, hw, hax⟩ := h
  have hne : ((obs.filter fun o => o.window = w).filter fun o => o.source = .ax) ≠ [] :=
    List.ne_nil_of_mem (List.mem_filter.mpr
      ⟨List.mem_filter.mpr ⟨ho, decide_eq_true hw⟩, decide_eq_true hax⟩)
  obtain ⟨x, hx⟩ := @exists_argmax _ _ _ favour _ hne
  have hpick : _pick (obs.filter fun o => o.window = w) .ax = some x := hx
  rw [voice, hpick, Option.some_or, Option.elim_some, (pick_mem hpick).2]

/-- Without an accessible reading, the first of the window names it. -/
theorem voice_head (hnone : ∀ o ∈ obs, o.window = w → o.source ≠ .ax)
    (ho : (obs.filter fun o => o.window = w).head? = some o) : voice w obs = o.source := by
  have hpick : _pick (obs.filter fun o => o.window = w) .ax = none := by
    refine List.argmax_eq_none.mpr (List.filter_eq_nil_iff.mpr fun x hx hax => ?_)
    obtain ⟨hx, hw⟩ := List.mem_filter.mp hx
    exact hnone x hx (of_decide_eq_true hw) (of_decide_eq_true hax)
  rw [voice, hpick, Option.none_or, ho, Option.elim_some]

theorem mem_foreignTo : o ∈ foreignTo w obs ↔ o ∈ obs ∧ o.window ≠ w := by
  rw [foreignTo, List.mem_filter, decide_eq_true_iff]

/-- One name for the window, whatever the order. -/
theorem voice_perm (h : obs'.Perm obs) (ho : o ∈ obs) (how : o.window = w)
    (hvoice : (∃ o ∈ obs, o.window = w ∧ o.source = .ax) ∨
      ∀ o ∈ obs, ∀ o' ∈ obs, o.window = w → o'.window = w → o.source = o'.source) :
    voice w obs' = voice w obs := by
  by_cases hax : ∃ o ∈ obs, o.window = w ∧ o.source = .ax
  · obtain ⟨x, hx, hxa⟩ := hax
    rw [voice_ax ⟨x, hx, hxa⟩, voice_ax ⟨x, h.mem_iff.mpr hx, hxa⟩]
  · have hsame := hvoice.resolve_left hax
    have hnone : ∀ x ∈ obs, x.window = w → x.source ≠ .ax := fun x hx hxw hxa =>
      hax ⟨x, hx, hxw, hxa⟩
    have hname : ∀ {l : List Observation}, l.Perm obs → voice w l = o.source := by
      intro l hl
      have hin : o ∈ l.filter fun o => o.window = w :=
        List.mem_filter.mpr ⟨hl.mem_iff.mpr ho, decide_eq_true how⟩
      obtain ⟨x, hx⟩ := Option.ne_none_iff_exists'.mp fun hnil =>
        List.ne_nil_of_mem hin (List.head?_eq_none_iff.mp hnil)
      obtain ⟨hxl, hxw⟩ := List.mem_filter.mp (List.mem_of_head? hx)
      rw [voice_head (fun y hy => hnone y (hl.mem_iff.mp hy)) hx]
      exact hsame x (hl.mem_iff.mp hxl) o ho (of_decide_eq_true hxw) how
    rw [hname h, hname (.refl obs)]

/-- The conflicts do not depend on the order. -/
theorem conflicts_perm (h : obs'.Perm obs)
    (hlate : late = [] ∨ ∃ c, late = [c] ∧ c.kind = CONFLICT_TIME)
    (hvoice : foreignTo w obs = [] ∨ voice w obs' = voice w obs)
    (hsense : ∀ p q, [p, q] <+~ boxed w obs → Disagree cfg p q → p.source = q.source)
    (hoverlap : ∀ p q p' q', [p, q] <+ boxed w obs → [p', q'] <+ boxed w obs →
      Disagree cfg p q → Disagree cfg p' q' → p.source = p'.source →
      overlapText cfg (p.geometry.iou q.geometry) = overlapText cfg (p'.geometry.iou q'.geometry) →
      p.geometry.iou q.geometry = p'.geometry.iou q'.geometry) :
    (found cfg w obs' late).Perm (found cfg w obs late) ∧
      (resultAt cfg sha256 w obs' late).conflicts = (resultAt cfg sha256 w obs late).conflicts := by
  have hforeign : ((foreignTo w obs').map (windowConflict w (voice w obs'))).Perm
      ((foreignTo w obs).map (windowConflict w (voice w obs))) := by
    have hperm : (foreignTo w obs').Perm (foreignTo w obs) := h.filter _
    rcases hvoice with hnil | hvoice
    · rw [hnil] at hperm ⊢
      rw [hperm.eq_nil]
      exact .refl _
    · rw [hvoice]
      exact hperm.map _
  have hstale : ((staleAt w obs').map (generationConflict (freshestAt w obs'))).Perm
      ((staleAt w obs).map (generationConflict (freshestAt w obs))) := by
    rw [staleAt, staleAt, freshestAt_perm h]
    exact (h.filter _).map _
  have hboxed : (boxed w obs').Perm (boxed w obs) := (freshAt_perm h).filter _
  have hsym : ∀ p q, [p, q] <+~ boxed w obs → geometryConflict cfg p q = geometryConflict cfg q p := by
    intro p q hpq
    have hcomm := p.geometry.iou_comm q.geometry
    have hback : Disagree cfg p q ↔ Disagree cfg q p := by
      unfold Disagree
      rw [hcomm]
    by_cases hfar : Disagree cfg p q
    · simp only [geometryConflict, if_pos hfar, if_pos (hback.mp hfar), hsense p q hpq hfar, hcomm]
    · rw [geometryConflict, geometryConflict, if_neg hfar, if_neg (hback.not.mp hfar)]
  have hgeo := filterMap_pairs_perm (geometryConflict cfg) hboxed.symm hsym
  have hfound : (found cfg w obs' late).Perm (found cfg w obs late) :=
    ((hforeign.append hstale).append hgeo.symm).append_right late
  refine ⟨hfound, insertionSort_eq_of_perm hfound fun c hc c' hc' hkey => ?_⟩
  exact eq_of_key hlate hoverlap c (hfound.mem_iff.mp hc) c' (hfound.mem_iff.mp hc') hkey

theorem fresh_iff (hone : ∀ a b, Top trust obs a → Top trust obs b → a.window = b.window)
    (ha : Top trust obs a) : Fresh obs o ↔ o ∈ freshAt a.window obs := by
  rw [mem_freshAt]
  constructor
  · rintro ⟨ho, ⟨l, hl, hw⟩, hmax⟩
    have hwin := (hone l a hl ha).symm.trans hw
    exact ⟨ho, hwin.symm, fun x hx hxw => hmax x hx (hxw.trans hwin)⟩
  · rintro ⟨ho, hw, hmax⟩
    exact ⟨ho, ⟨a, ha, hw.symm⟩, fun x hx hxw => hmax x hx (hxw.trans hw)⟩

theorem best_iff {has : Observation → Prop} {sel : Observation → Bool}
    (hfresh : ∀ x, Fresh obs x ↔ x ∈ freshAt w obs) (hsel : ∀ x, sel x = true ↔ has x) :
    Best key has obs o ↔ Top key ((freshAt w obs).filter sel) o := by
  simp only [Best, Top, List.mem_filter, hfresh, hsel, and_imp]

theorem apart_iff (hfresh : ∀ x, Fresh obs x ↔ x ∈ freshAt w obs) :
    Apart cfg obs p q ↔ [p, q] <+~ boxed w obs ∧ Disagree cfg p q := by
  have hboxed : ∀ x, x ∈ boxed w obs ↔ Fresh obs x ∧ x.geometry.valid = true := fun x => by
    rw [boxed, List.mem_filter, hfresh]
  constructor
  · rintro ⟨hpq, hp, hq, hpv, hqv, hfar⟩
    refine ⟨?_, hfar⟩
    have hkept := hpq.filter fun o =>
      o.geometry.valid && decide (o.window = w ∧ o.generation = freshestAt w obs)
    have hin : ∀ {x : Observation}, Fresh obs x → x.window = w ∧ x.generation = freshestAt w obs :=
      fun hx => of_decide_eq_true (List.mem_filter.mp ((hfresh _).mp hx)).2
    have hpair : [p, q].filter (fun o => o.geometry.valid &&
        decide (o.window = w ∧ o.generation = freshestAt w obs)) = [p, q] := by
      simp [hpv, hqv, hin hp, hin hq]
    rwa [hpair, ← List.filter_filter] at hkept
  · rintro ⟨hpq, hfar⟩
    obtain ⟨hp, hpv⟩ := (hboxed p).mp (hpq.subset List.mem_cons_self)
    obtain ⟨hq, hqv⟩ := (hboxed q).mp (hpq.subset (List.mem_cons_of_mem _ List.mem_cons_self))
    have hsub : boxed w obs <+ obs := List.filter_sublist.trans List.filter_sublist
    exact ⟨hpq.trans hsub.subperm, hp, hq, hpv, hqv, hfar⟩

/-- Under the condition, the order does not matter. -/
theorem sameFusion (h : Settled cfg obs) (hobs : obs'.Perm obs) (ha : Top trust obs a)
    (hlate : late = [] ∨ ∃ c, late = [c] ∧ c.kind = CONFLICT_TIME) :
    SameFusion (resultAt cfg sha256 a.window obs late)
      (resultAt cfg sha256 a.window obs' late) := by
  have hfresh := fun x => fresh_iff (o := x) h.one_window ha
  have hvoice : foreignTo a.window obs = [] ∨ voice a.window obs' = voice a.window obs := by
    rcases h.one_voice a ha with hall | hvoice
    · exact .inl (List.filter_eq_nil_iff.mpr fun o ho hw => of_decide_eq_true hw (hall o ho))
    · exact .inr (voice_perm hobs ha.1 rfl hvoice)
  obtain ⟨hfound, hconflicts⟩ := @conflicts_perm cfg sha256 _ _ _ _ hobs hlate hvoice
    (fun p q hpq hfar => h.one_sense p q ((apart_iff hfresh).mpr ⟨hpq, hfar⟩))
    (fun p q p' q' hpq hpq' hfar hfar' hs ht =>
      h.one_overlap p q p' q' ((apart_iff hfresh).mpr ⟨hpq.subperm, hfar⟩)
        ((apart_iff hfresh).mpr ⟨hpq'.subperm, hfar'⟩) hs ht)
  have hgen : freshestAt a.window obs' = freshestAt a.window obs := freshestAt_perm hobs
  have hparts : (freshAt a.window obs').Perm (freshAt a.window obs) := freshAt_perm hobs
  have hnodes : nodesAt a.window obs' = nodesAt a.window obs :=
    (fresh_agree_iff [] Observation.semantic_nodes _).mpr (fun x y hx hy =>
      h.one_tree x y ((best_iff hfresh fun _ => decide_eq_true_iff).mpr hx)
        ((best_iff hfresh fun _ => decide_eq_true_iff).mpr hy)) obs' hobs
  have hvisual : visualAt a.window obs' = visualAt a.window obs := by
    have hagree := (fresh_agree_iff none Observation.visual_reference _).mpr (fun x y hx hy =>
      h.one_bitmap x y ((best_iff hfresh fun _ => decide_eq_true_iff).mpr hx)
        ((best_iff hfresh fun _ => decide_eq_true_iff).mpr hy)) obs' hobs
    have hbind : ∀ x : Option Observation,
        x.bind Observation.visual_reference = x.elim none Observation.visual_reference := fun x => by
      cases x <;> rfl
    rw [visualAt, visualAt, hbind, hbind]
    exact hagree
  have hbox : fused_geometry (freshAt a.window obs') = fused_geometry (freshAt a.window obs) := by
    rw [fused_geometry_eq, fused_geometry_eq]
    exact (fresh_agree_iff {} Observation.geometry _).mpr (fun x y hx hy =>
      h.one_box x y ((best_iff hfresh fun _ => Iff.rfl).mpr hx)
        ((best_iff hfresh fun _ => Iff.rfl).mpr hy)) obs' hobs
  have hconf : confidenceAt cfg a.window obs' late = confidenceAt cfg a.window obs late := by
    rw [confidenceAt, confidenceAt, max?_perm (hparts.map Observation.confidence),
      ((hfound.map ObservationConflict.kind).dedup).length_eq]
  refine ⟨?_, hconflicts, hparts, ?_, hobs.filter _⟩
  · simp only [resultAt, hgen, hnodes, hvisual, hbox, hconf,
      max?_perm (hparts.map Observation.timestamp)]
  · simp only [resultAt, staleAt, hgen]
    exact hobs.filter _

/-! ## What every order gives -/

/-- What each order of the readings is to give. -/
def OrderFree (cfg : FusionConfig) (sha256 : String → String) (w : ℤ × ℤ)
    (late : List ObservationConflict) (obs : List Observation) : Prop :=
  ∀ obs' : List Observation, obs'.Perm obs →
    SameFusion (resultAt cfg sha256 w obs late) (resultAt cfg sha256 w obs' late)

namespace OrderFree

theorem found_iff (h : OrderFree cfg sha256 w late obs) (hobs : obs'.Perm obs)
    (c : ObservationConflict) : c ∈ found cfg w obs' late ↔ c ∈ found cfg w obs late := by
  rw [← @mem_conflicts cfg sha256, ← @mem_conflicts cfg sha256, (h obs' hobs).conflicts]

/-- One that is foreign makes each reading of the window name it. -/
theorem one_voice (h : OrderFree cfg sha256 w late obs)
    (hlate : late = [] ∨ ∃ c, late = [c] ∧ c.kind = CONFLICT_TIME) (ho : o ∈ obs) (how : o.window ≠ w)
    (hnone : ∀ x ∈ obs, x.window = w → x.source ≠ .ax) (hp : p ∈ obs) (hpw : p.window = w)
    (hq : q ∈ obs) (hqw : q.window = w) : p.source = q.source := by
  have hname : ∀ {x : Observation}, x ∈ obs → x.window = w →
      windowConflict w x.source o ∈ found cfg w obs late := by
    intro x hx hxw
    obtain ⟨s, t, hst⟩ := List.append_of_mem hx
    have hperm : (x :: (s ++ t)).Perm obs := by
      rw [hst]
      exact List.perm_middle.symm
    have hvoice : voice w (x :: (s ++ t)) = x.source := by
      refine voice_head (fun y hy => hnone y (hperm.mem_iff.mp hy)) ?_
      simp [hxw]
    rw [← h.found_iff hperm, ← hvoice]
    exact mem_found.mpr (.inl ⟨o, mem_foreignTo.mpr ⟨hperm.mem_iff.mpr ho, how⟩, rfl⟩)
  have hvoiced : ∀ {x : Observation}, x ∈ obs → x.window = w → x.source = voice w obs := by
    intro x hx hxw
    rcases mem_found.mp (hname hx hxw) with ⟨y, -, hy⟩ | ⟨y, -, hy⟩ | ⟨y, z, -, hy⟩ | hy
    · exact Source.text_inj (congrArg ObservationConflict.a_source hy)
    · exact absurd (congrArg ObservationConflict.kind hy)
        (show CONFLICT_WINDOW_IDENTITY ≠ CONFLICT_GENERATION by decide)
    · exact absurd (congrArg ObservationConflict.kind (geometryConflict_some.mp hy).2)
        (show CONFLICT_WINDOW_IDENTITY ≠ CONFLICT_GEOMETRY by decide)
    · rcases hlate with rfl | ⟨c, rfl, hkind⟩
      · simp at hy
      · rw [← List.mem_singleton.mp hy] at hkind
        exact absurd hkind (show CONFLICT_WINDOW_IDENTITY ≠ CONFLICT_TIME by decide)
  rw [hvoiced hp hpw, hvoiced hq hqw]

/-- A conflict of boxes, wherever it is found. -/
theorem mem_found_geometry {c : ObservationConflict} {x y : Observation}
    (hlate : late = [] ∨ ∃ c, late = [c] ∧ c.kind = CONFLICT_TIME)
    (hxy : geometryConflict cfg x y = some c) (hc : c ∈ found cfg w obs late) :
    ∃ p q, [p, q] <+ boxed w obs ∧ geometryConflict cfg p q = some c := by
  have hkind : c.kind = CONFLICT_GEOMETRY := by rw [(geometryConflict_some.mp hxy).2]
  rcases mem_found.mp hc with ⟨y, -, rfl⟩ | ⟨y, -, rfl⟩ | hpq | hc
  · exact absurd hkind (show CONFLICT_WINDOW_IDENTITY ≠ CONFLICT_GEOMETRY by decide)
  · exact absurd hkind (show CONFLICT_GENERATION ≠ CONFLICT_GEOMETRY by decide)
  · exact hpq
  · rcases hlate with rfl | ⟨d, rfl, hd⟩
    · simp at hc
    · rw [List.mem_singleton.mp hc, hd] at hkind
      exact absurd hkind (by decide)

/-- The two of a conflict of boxes would be named the other way round. -/
theorem one_sense (h : OrderFree cfg sha256 w late obs)
    (hlate : late = [] ∨ ∃ c, late = [c] ∧ c.kind = CONFLICT_TIME)
    (hpq : [p, q] <+~ boxed w obs) (hfar : Disagree cfg p q) : p.source = q.source := by
  by_contra hne
  let first := obs.filter fun o => o.source = p.source
  let last := obs.filter fun o => !decide (o.source = p.source)
  have hback : Disagree cfg q p := by
    unfold Disagree
    rw [q.geometry.iou_comm]
    exact hfar
  have hperm : (first ++ last).Perm obs := List.filter_append_perm _ obs
  have hperm' : (last ++ first).Perm obs := List.perm_append_comm.trans hperm
  obtain ⟨hpb, hqb⟩ : p ∈ boxed w obs ∧ q ∈ boxed w obs :=
    ⟨hpq.subset List.mem_cons_self, hpq.subset (List.mem_cons_of_mem _ List.mem_cons_self)⟩
  have hin : ∀ {x : Observation}, x ∈ boxed w obs → x ∈ obs := fun hx =>
    List.mem_of_mem_filter (List.mem_of_mem_filter hx)
  have hfirst : p ∈ first := List.mem_filter.mpr ⟨hin hpb, decide_eq_true rfl⟩
  have hlast : q ∈ last := List.mem_filter.mpr ⟨hin hqb, by simpa using fun heq => hne heq.symm⟩
  -- the others first, the conflict names them first
  have hswapped : [q, p] <+ boxed w (last ++ first) := by
    have hsub : [q, p] <+ last ++ first :=
      (List.singleton_sublist.mpr hlast).append (List.singleton_sublist.mpr hfirst)
    have hkept := hsub.filter fun o =>
      o.geometry.valid && decide (o.window = w ∧ o.generation = freshestAt w (last ++ first))
    have hboth : ∀ {x : Observation}, x ∈ boxed w obs → x.geometry.valid = true ∧
        x.window = w ∧ x.generation = freshestAt w (last ++ first) := by
      intro x hx
      rw [freshestAt_perm hperm']
      obtain ⟨hx, hv⟩ := List.mem_filter.mp hx
      exact ⟨hv, of_decide_eq_true (List.mem_filter.mp hx).2⟩
    have hpair : [q, p].filter (fun o => o.geometry.valid &&
        decide (o.window = w ∧ o.generation = freshestAt w (last ++ first))) = [q, p] := by
      simp [hboth hpb, hboth hqb]
    rwa [hpair, ← List.filter_filter] at hkept
  have hfound : ∃ c, geometryConflict cfg q p = some c ∧ c ∈ found cfg w obs late :=
    ⟨_, if_pos hback, (h.found_iff hperm' _).mp
      (mem_found.mpr (.inr (.inr (.inl ⟨q, p, hswapped, if_pos hback⟩))))⟩
  -- with the one source first, no conflict does
  obtain ⟨c, hc, hcin⟩ := hfound
  obtain ⟨x, y, hxy, hcxy⟩ := mem_found_geometry hlate hc ((h.found_iff hperm c).mpr hcin)
  obtain ⟨-, hcx⟩ := geometryConflict_some.mp hcxy
  obtain ⟨-, hcq⟩ := geometryConflict_some.mp hc
  have hx : x.source = q.source := by
    refine Source.text_inj ?_
    rw [hcq] at hcx
    exact (congrArg ObservationConflict.a_source hcx).symm
  have hy : y.source = p.source := by
    refine Source.text_inj ?_
    rw [hcq] at hcx
    exact (congrArg ObservationConflict.b_source hcx).symm
  have hsub : [x, y] <+ first ++ last :=
    hxy.trans (List.filter_sublist.trans List.filter_sublist)
  obtain ⟨l₁, l₂, hl, hl₁, hl₂⟩ := List.sublist_append_iff.mp hsub
  cases l₁ with
  | nil =>
      rw [List.nil_append] at hl
      have hy' : y ∈ last := hl₂.subset (hl ▸ List.mem_cons_of_mem _ List.mem_cons_self)
      simpa [hy] using (List.mem_filter.mp hy').2
  | cons z l₁ =>
      obtain ⟨rfl, -⟩ := List.cons.inj hl
      have hx' := of_decide_eq_true (List.mem_filter.mp (hl₁.subset List.mem_cons_self)).2
      exact hne (hx'.symm.trans hx)

theorem filter_conflicts (c : ObservationConflict) :
    (resultAt cfg sha256 w obs late).conflicts.filter (fun d => d.key = c.key) =
      (found cfg w obs late).filter fun d => d.key = c.key := by
  refine @filter_insertionSort _ _ _ ObservationConflict.key _ (fun a b ha hb => ?_) _
  exact ((of_decide_eq_true ha).trans (of_decide_eq_true hb).symm).le

theorem filter_key_eq_nil {c : ObservationConflict} (hc : c.kind = CONFLICT_GEOMETRY)
    {l : List ObservationConflict} (hl : ∀ d ∈ l, d.kind ≠ CONFLICT_GEOMETRY) :
    l.filter (fun d => d.key = c.key) = [] := by
  refine List.filter_eq_nil_iff.mpr fun d hd hkey => hl d hd ?_
  have hsame : d.kind = c.kind := congrArg (fun k => (ofLex k).1) (of_decide_eq_true hkey)
  exact hsame.trans hc

/-- The first of the pairs of one key comes first among the conflicts. -/
theorem head_filter_conflicts {rest : List Observation} {c : ObservationConflict}
    (hboxed : boxed w obs = p :: q :: rest) (hc : geometryConflict cfg p q = some c) :
    ((resultAt cfg sha256 w obs late).conflicts.filter fun d => d.key = c.key).head? = some c := by
  have hkind : c.kind = CONFLICT_GEOMETRY := by rw [(geometryConflict_some.mp hc).2]
  have hforeign := filter_key_eq_nil hkind
    (l := (foreignTo w obs).map (windowConflict w (voice w obs))) fun d hd => by
      obtain ⟨x, -, rfl⟩ := List.mem_map.mp hd
      exact show CONFLICT_WINDOW_IDENTITY ≠ CONFLICT_GEOMETRY by decide
  have hstale := filter_key_eq_nil hkind
    (l := (staleAt w obs).map (generationConflict (freshestAt w obs))) fun d hd => by
      obtain ⟨x, -, rfl⟩ := List.mem_map.mp hd
      exact show CONFLICT_GENERATION ≠ CONFLICT_GEOMETRY by decide
  have hpairs : (pairs (boxed w obs)).filterMap (fun x => geometryConflict cfg x.1 x.2) =
      c :: (rest.map (fun b => (p, b)) ++ pairs (q :: rest)).filterMap
        (fun x => geometryConflict cfg x.1 x.2) := by
    rw [hboxed, pairs, List.map_cons, List.cons_append]
    exact List.filterMap_cons_some hc
  rw [filter_conflicts, found, hpairs, List.filter_append, List.filter_append, List.filter_append,
    hforeign, hstale, List.filter_cons]
  simp only [decide_true, if_true, List.nil_append, List.cons_append, List.head?_cons]

/-- The overlap is told by the text: each of two pairs may come first. -/
theorem one_overlap {p' q' : Observation} (h : OrderFree cfg sha256 w late obs)
    (hlate : late = [] ∨ ∃ c, late = [c] ∧ c.kind = CONFLICT_TIME)
    (hpq : [p, q] <+~ boxed w obs) (hpq' : [p', q'] <+~ boxed w obs) (hfar : Disagree cfg p q)
    (hfar' : Disagree cfg p' q') (hs : p.source = p'.source)
    (ht : overlapText cfg (p.geometry.iou q.geometry) = overlapText cfg (p'.geometry.iou q'.geometry)) :
    p.geometry.iou q.geometry = p'.geometry.iou q'.geometry := by
  have hfirst : ∀ {x y : Observation}, [x, y] <+~ boxed w obs → ∃ whole rest, whole.Perm obs ∧
      boxed w whole = x :: y :: rest := by
    intro x y hxy
    obtain ⟨s, hs, hsub⟩ := hxy
    obtain ⟨rest, hrest⟩ := hsub.exists_perm_append
    replace hrest := hrest.trans (hs.append_right rest)
    have hsel : boxed w obs = obs.filter fun o =>
        o.geometry.valid && decide (o.window = w ∧ o.generation = freshestAt w obs) := by
      rw [boxed, freshAt, List.filter_filter]
    rw [hsel] at hrest
    obtain ⟨whole, hwhole, hfilter⟩ := exists_perm_filter _ hrest.symm
    refine ⟨whole, rest, hwhole, ?_⟩
    rw [boxed, freshAt, List.filter_filter, freshestAt_perm hwhole]
    exact hfilter
  have hhead : ∀ {x y : Observation}, [x, y] <+~ boxed w obs → ∀ c, geometryConflict cfg x y = some c →
      ((resultAt cfg sha256 w obs late).conflicts.filter fun d => d.key = c.key).head? = some c := by
    intro x y hxy c hc
    obtain ⟨whole, rest, hwhole, hboxed⟩ := hfirst hxy
    rw [← (h whole hwhole).conflicts]
    exact head_filter_conflicts hboxed hc
  have hq : q.source = q'.source := by
    rw [← h.one_sense hlate hpq hfar, hs, h.one_sense hlate hpq' hfar']
  obtain ⟨c, hc⟩ : ∃ c, geometryConflict cfg p q = some c := ⟨_, if_pos hfar⟩
  obtain ⟨c', hc'⟩ : ∃ c, geometryConflict cfg p' q' = some c := ⟨_, if_pos hfar'⟩
  have hp := hhead hpq c hc
  have hp' := hhead hpq' c' hc'
  obtain ⟨-, rfl⟩ := geometryConflict_some.mp hc
  obtain ⟨-, rfl⟩ := geometryConflict_some.mp hc'
  have hkey : ObservationConflict.key
        { kind := CONFLICT_GEOMETRY, a_source := p.source.text, b_source := q.source.text
          detail := overlapText cfg (p.geometry.iou q.geometry)
          severity := 1 - p.geometry.iou q.geometry } =
      ObservationConflict.key
        { kind := CONFLICT_GEOMETRY, a_source := p'.source.text, b_source := q'.source.text
          detail := overlapText cfg (p'.geometry.iou q'.geometry)
          severity := 1 - p'.geometry.iou q'.geometry } := by
    simp only [ObservationConflict.key, hs, hq, ht]
  rw [hkey, hp'] at hp
  have hsev := congrArg ObservationConflict.severity (Option.some.inj hp)
  simp only at hsev
  linarith

end OrderFree

/-! ## The theorem -/

/-- A fusion that is the same for each order has one window to fuse. -/
theorem one_window (hfused : fuse cfg sha256 obs = .ok r)
    (h : ∀ obs' : List Observation, obs'.Perm obs →
      ∃ r', fuse cfg sha256 obs' = .ok r' ∧ SameFusion r r') :
    (∀ x, Top trust obs x → x.window = r.fused.window) ∧
      ∃ late, timeConflict cfg (freshAt r.fused.window obs) = .ok late ∧
        r = resultAt cfg sha256 r.fused.window obs late ∧
          OrderFree cfg sha256 r.fused.window late obs := by
  have hwindow : ∀ x, Top trust obs x → x.window = r.fused.window := by
    intro x hx
    obtain ⟨rest, hperm, hbest⟩ := hx.exists_first
    obtain ⟨r', hr', hsame⟩ := h _ hperm
    obtain ⟨y, late, hy, -, rfl⟩ := fuse_ok_iff.mp hr'
    rw [hbest] at hy
    obtain rfl := Option.some.inj hy
    rw [← hsame.fused]
    rfl
  refine ⟨hwindow, ?_⟩
  obtain ⟨o, late, ho, hlate, hr⟩ := fuse_ok_iff.mp hfused
  have how := hwindow o (top_of_argmax ho)
  rw [how] at hlate hr
  refine ⟨late, hlate, hr.symm, fun obs' hobs => ?_⟩
  obtain ⟨r', hr', hsame⟩ := h obs' hobs
  obtain ⟨x, late', hx, hlate', hr'⟩ := fuse_ok_iff.mp hr'
  rw [hwindow x ((top_of_argmax hx).perm hobs)] at hlate' hr'
  rw [timeConflict_perm (freshAt_perm hobs), hlate] at hlate'
  obtain rfl := Except.ok.inj hlate'
  rw [hr, hr']
  exact hsame

/-- What is carried is what the result has. -/
theorem carried {nodes : List SemanticNode} {visual : Option VisualReference}
    (hfresh : ∀ x, Fresh obs x ↔ x ∈ freshAt w obs)
    (htree : ∀ a b, Best favour (·.source = .ax) obs a → Best favour (·.source = .ax) obs b →
      a.semantic_nodes = b.semantic_nodes)
    (hbitmap : ∀ a b, Best favour (·.source = .dib) obs a → Best favour (·.source = .dib) obs b →
      a.visual_reference = b.visual_reference) (h : Carried obs nodes visual) :
    nodes = nodesAt w obs ∧ visual = visualAt w obs := by
  have hnone : ∀ {source : Source}, (∀ o, Fresh obs o → o.source ≠ source) →
      _pick (freshAt w obs) source = none := by
    intro source hall
    refine List.argmax_eq_none.mpr (List.filter_eq_nil_iff.mpr fun x hx hsrc => ?_)
    exact hall x ((hfresh x).mpr hx) (of_decide_eq_true hsrc)
  have hsome : ∀ {source : Source} {o : Observation}, Best favour (·.source = source) obs o →
      ∃ x, _pick (freshAt w obs) source = some x ∧ Best favour (·.source = source) obs x := by
    intro source o ho
    have hsel : ∀ x : Observation, decide (x.source = source) = true ↔ x.source = source :=
      fun _ => decide_eq_true_iff
    have htop := (best_iff hfresh hsel).mp ho
    obtain ⟨x, hx⟩ := @exists_argmax _ _ _ favour _ (List.ne_nil_of_mem htop.1)
    exact ⟨x, hx, (best_iff hfresh fun _ => decide_eq_true_iff).mpr (top_of_argmax hx)⟩
  obtain ⟨hnodes, hvisual⟩ := h
  constructor
  · rcases hnodes with ⟨o, ho, rfl⟩ | ⟨hall, rfl⟩
    · obtain ⟨x, hx, hbest⟩ := hsome ho
      rw [nodesAt, hx, Option.elim_some, htree o x ho hbest]
    · rw [nodesAt, hnone hall, Option.elim_none]
  · rcases hvisual with ⟨o, ho, rfl⟩ | ⟨hall, rfl⟩
    · obtain ⟨x, hx, hbest⟩ := hsome ho
      rw [visualAt, hx, Option.bind_some, hbitmap o x ho hbest]
    · rw [visualAt, hnone hall, Option.bind_none]

theorem carried_at (hfresh : ∀ x, Fresh obs x ↔ x ∈ freshAt w obs) :
    Carried obs (nodesAt w obs) (visualAt w obs) := by
  have hnone : ∀ {source : Source}, _pick (freshAt w obs) source = none →
      ∀ o, Fresh obs o → o.source ≠ source := by
    intro source hpick o ho hsrc
    refine List.filter_eq_nil_iff.mp (List.argmax_eq_none.mp hpick) o ((hfresh o).mp ho) ?_
    exact decide_eq_true hsrc
  have hsome : ∀ {source : Source} {x : Observation}, _pick (freshAt w obs) source = some x →
      Best favour (·.source = source) obs x := fun hpick =>
    (best_iff hfresh fun _ => decide_eq_true_iff).mpr (top_of_argmax hpick)
  constructor
  · rcases hpick : _pick (freshAt w obs) .ax with - | x
    · exact .inr ⟨hnone hpick, by rw [nodesAt, hpick, Option.elim_none]⟩
    · exact .inl ⟨x, hsome hpick, by rw [nodesAt, hpick, Option.elim_some]⟩
  · rcases hpick : _pick (freshAt w obs) .dib with - | x
    · exact .inr ⟨hnone hpick, by rw [visualAt, hpick, Option.bind_none]⟩
    · exact .inl ⟨x, hsome hpick, by rw [visualAt, hpick, Option.bind_some]⟩

theorem settled_of_fuses (hsha : Function.Injective sha256) (h : fuse cfg sha256 obs = .ok r)
    (hf : Fuses cfg sha256 obs r) : Settled cfg obs := by
  obtain ⟨hwindow, late, hlate, hr, hfree⟩ := one_window h hf.order_free
  have hkind := timeConflict_kind hlate
  obtain ⟨o, ho, how⟩ := hf.sourced.anchored
  have hone : ∀ a b, Top trust obs a → Top trust obs b → a.window = b.window :=
    fun a b ha hb => (hwindow a ha).trans (hwindow b hb).symm
  have hfresh : ∀ x, Fresh obs x ↔ x ∈ freshAt r.fused.window obs := fun x =>
    how ▸ fresh_iff hone ho
  have htree : ∀ a b, Best favour (·.source = .ax) obs a → Best favour (·.source = .ax) obs b →
      a.semantic_nodes = b.semantic_nodes := fun a b ha hb =>
    (fresh_agree_iff [] Observation.semantic_nodes _).mp
      (fun obs' hobs => congrArg Observation.semantic_nodes (hfree obs' hobs).fused) a b
      ((best_iff hfresh fun _ => decide_eq_true_iff).mp ha)
      ((best_iff hfresh fun _ => decide_eq_true_iff).mp hb)
  have hbitmap : ∀ a b, Best favour (·.source = .dib) obs a →
      Best favour (·.source = .dib) obs b → a.visual_reference = b.visual_reference := by
    intro a b ha hb
    refine (fresh_agree_iff none Observation.visual_reference _).mp (fun obs' hobs => ?_) a b
      ((best_iff hfresh fun _ => decide_eq_true_iff).mp ha)
      ((best_iff hfresh fun _ => decide_eq_true_iff).mp hb)
    have hsame := congrArg Observation.visual_reference (hfree obs' hobs).fused
    have hbind : ∀ x : Option Observation,
        x.bind Observation.visual_reference = x.elim none Observation.visual_reference := fun x => by
      cases x <;> rfl
    simp only [resultAt, visualAt, hbind] at hsame
    exact hsame
  refine ⟨hone, fun a ha => ?_, fun p q hpq => ?_, fun p q p' q' hpq hpq' hs ht => ?_, htree,
    hbitmap, fun a b ha hb => ?_, ?_, fun nodes visual hcarried => ?_⟩
  · rw [hwindow a ha]
    by_cases hall : ∀ x ∈ obs, x.window = r.fused.window
    · exact .inl hall
    · push Not at hall
      obtain ⟨x, hx, hxw⟩ := hall
      by_cases hax : ∃ x ∈ obs, x.window = r.fused.window ∧ x.source = .ax
      · exact .inr (.inl hax)
      · refine .inr (.inr fun p hp q hq hpw hqw => ?_)
        exact hfree.one_voice hkind hx hxw (fun y hy hyw hya => hax ⟨y, hy, hyw, hya⟩) hp hpw hq hqw
  · obtain ⟨hpair, hfar⟩ := (apart_iff hfresh).mp hpq
    exact hfree.one_sense hkind hpair hfar
  · obtain ⟨hpair, hfar⟩ := (apart_iff hfresh).mp hpq
    obtain ⟨hpair', hfar'⟩ := (apart_iff hfresh).mp hpq'
    exact hfree.one_overlap hkind hpair hpair' hfar hfar' hs ht
  · refine (fresh_agree_iff {} Observation.geometry _).mp (fun obs' hobs => ?_) a b
      ((best_iff hfresh fun _ => Iff.rfl).mp ha) ((best_iff hfresh fun _ => Iff.rfl).mp hb)
    rw [← fused_geometry_eq, ← fused_geometry_eq]
    exact congrArg Observation.geometry (hfree obs' hobs).fused
  · refine (timeConflict_ok_iff.mp ⟨late, hlate⟩).imp_right fun htimes p q hp hq => ?_
    exact htimes p ((hfresh p).mp hp) q ((hfresh q).mp hq)
  · obtain ⟨rfl, rfl⟩ := carried hfresh htree hbitmap hcarried
    have hplain := (pins_iff hsha h).mp hf.pins
    rw [hr] at hplain
    exact hplain

theorem fuses_of_settled (hsha : Function.Injective sha256) (hne : obs ≠ []) (h : Settled cfg obs) :
    ∃ r, fuse cfg sha256 obs = .ok r ∧ Fuses cfg sha256 obs r := by
  obtain ⟨a, hbest⟩ := @exists_argmax _ _ _ trust _ hne
  have ha := top_of_argmax hbest
  have hfresh := fun x => fresh_iff (o := x) h.one_window ha
  obtain ⟨late, hlate⟩ : ∃ late, timeConflict cfg (freshAt a.window obs) = .ok late := by
    refine timeConflict_ok_iff.mpr (h.timed.imp_right fun htimes p hp q hq => ?_)
    exact htimes p q ((hfresh p).mpr hp) ((hfresh q).mpr hq)
  have hfuse : fuse cfg sha256 obs = .ok (resultAt cfg sha256 a.window obs late) :=
    fuse_ok_iff.mpr ⟨a, late, hbest, hlate, rfl⟩
  refine ⟨_, hfuse, fun obs' hobs => ?_, parts_perm a.window obs, sourced hbest, surfaces hlate, ?_⟩
  · have hne' : obs' ≠ [] := by
      rintro rfl
      exact hne hobs.nil_eq.symm
    obtain ⟨b, hb⟩ := @exists_argmax _ _ _ trust _ hne'
    have hw : b.window = a.window := h.one_window b a ((top_of_argmax hb).perm hobs) ha
    refine ⟨_, fuse_ok_iff.mpr ⟨b, late, hb, ?_, rfl⟩, ?_⟩
    · rw [hw, timeConflict_perm (freshAt_perm hobs), hlate]
    · rw [hw]
      exact sameFusion h hobs ha (timeConflict_kind hlate)
  · exact (pins_iff hsha hfuse).mpr (h.plain _ _ (carried_at hfresh))

end

namespace Sample

/-- A button as the one sense sees it. -/
def axSeen : Observation where
  source := .ax
  window_id := 7
  app_pid := 1
  generation := 1
  timestamp := 1
  confidence := 9 / 10
  geometry := ⟨0, 0, 100, 40⟩

/-- What the other sense has of it, somewhere else. -/
def dibSeen : Observation where
  source := .dib
  window_id := 7
  app_pid := 1
  generation := 1
  timestamp := 1
  confidence := 7 / 10
  geometry := ⟨500, 500, 100, 40⟩
  visual_reference := some { width := 100, height := 40, bit_count := 24 }

end Sample

end Secdogie.Agent.Fusion
