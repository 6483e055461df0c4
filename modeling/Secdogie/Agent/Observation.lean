/-
# `Secdogie.Agent.Observation` — one window, from what two senses report

`fuse` makes one observation of the ones it is given.  Those of another window
than the anchor's and those of an older generation are set aside; of the rest
the tree comes from the accessibility sense, the bitmap from the other, the
box from the most trusted that has one.  Every disagreement is kept beside it
as a conflict.  A float is the rational that it stands for.
-/
import Secdogie.Agent.Adapter
import Secdogie.Lib.Ties

namespace Secdogie.Agent

/-! ## Boxes -/

namespace Geometry

variable (g other : Geometry)

def area : ℤ := if g.valid then g.w * g.h else 0

/-- The intersection over the union. -/
def iou : ℚ :=
  if g.valid = false ∨ other.valid = false then 0
  else
    let iw := min (g.x + g.w) (other.x + other.w) - max g.x other.x
    let ih := min (g.y + g.h) (other.y + other.h) - max g.y other.y
    if iw ≤ 0 ∨ ih ≤ 0 then 0
    else
      let inter := iw * ih
      let union := g.area + other.area - inter
      if 0 < union then (inter : ℚ) / union else 0

theorem iou_comm : g.iou other = other.iou g := by
  simp only [iou, or_comm (a := g.valid = false), min_comm (g.x + g.w), max_comm g.x,
    min_comm (g.y + g.h), max_comm g.y, add_comm g.area]

end Geometry

def SemanticNode.key (n : SemanticNode) : String × String × String :=
  (n.role, n.name, n.automation_id)

namespace Fusion

/-! ## Texts of numbers -/

/-- `round(q)`, which goes to the even one of two that are as near. -/
def roundHalfEven (q : ℚ) : ℤ :=
  let n := q.floor
  let part := q - n
  if part < 1 / 2 then n else if 1 / 2 < part then n + 1 else if n % 2 = 0 then n else n + 1

/-- `f"{q:.kf}"` -/
def fixed (k : ℕ) (q : ℚ) : String :=
  let n := (roundHalfEven (|q| * 10 ^ k)).toNat
  let frac := toString (n % 10 ^ k)
  (if q < 0 then "-" else "") ++ toString (n / 10 ^ k) ++
    (if k = 0 then "" else "." ++ String.ofList (List.replicate (k - frac.length) '0') ++ frac)

example : fixed 2 (1 / 3) = "0.33" := by decide +kernel

/-! ## Observations -/

inductive Source where
  | ax | dib | fused
deriving DecidableEq

def Source.text : Source → String
  | .ax => "ax"
  | .dib => "dib"
  | .fused => "fused"

def _SOURCE_RANK : Source → ℕ
  | .ax => 3
  | .dib => 2
  | .fused => 0

structure Observation where
  source : Source
  window_id : ℤ
  app_pid : ℤ
  generation : ℤ := 0
  timestamp : ℚ := 0
  confidence : ℚ := 0
  geometry : Geometry := {}
  semantic_nodes : List SemanticNode := []
  visual_reference : Option VisualReference := none
  content_hash : String := ""
deriving DecidableEq

def Observation.window (o : Observation) : ℤ × ℤ := (o.window_id, o.app_pid)

/-- The line of a node in the text that is hashed. -/
def entry (n : SemanticNode) : String :=
  "|".intercalate [n.role, n.name, n.automation_id] ++
    (if n.path_index = [] then "" else "@" ++ ".".intercalate (n.path_index.map toString)) ++
    match n.visual_reference with
    | none => ""
    | some ref => "#" ++ ref.content_hash

def hash_parts (source : String) (window : ℤ × ℤ) (generation : ℤ) (geometry : Geometry)
    (semantic_nodes : List SemanticNode) (visual_reference : Option VisualReference) :
    List String :=
  [source, toString window.1 ++ ":" ++ toString window.2, toString generation,
    toString geometry.x ++ "," ++ toString geometry.y ++ "," ++ toString geometry.w ++ "," ++
      toString geometry.h] ++
    semantic_nodes.map entry ++
    match visual_reference with
    | none => []
    | some ref => ["vref:" ++ ref.content_hash]

/-- `sha256` gives the digest of the bytes of a text, in hex. -/
def _content_hash_for (sha256 : String → String) (source : String) (window : ℤ × ℤ)
    (generation : ℤ) (geometry : Geometry) (semantic_nodes : List SemanticNode)
    (visual_reference : Option VisualReference) : String :=
  sha256 ("\n".intercalate
    (hash_parts source window generation geometry semantic_nodes visual_reference))

/-! ## Conflicts -/

def CONFLICT_WINDOW_IDENTITY : String := "window-identity-mismatch"
def CONFLICT_GENERATION : String := "generation-skew"
def CONFLICT_GEOMETRY : String := "geometry-mismatch"
def CONFLICT_TIME : String := "time-skew"

structure ObservationConflict where
  kind : String
  a_source : String
  b_source : String
  detail : String := ""
  severity : ℚ := 1 / 2
deriving DecidableEq

/-- What the conflicts are sorted by. -/
def ObservationConflict.key (c : ObservationConflict) :
    String ×ₗ String ×ₗ String ×ₗ String :=
  toLex (c.kind, toLex (c.a_source, toLex (c.b_source, c.detail)))

structure FusionResult where
  fused : Observation
  conflicts : List ObservationConflict := []
  contributors : List Observation := []
  stale : List Observation := []
  foreign : List Observation := []
deriving DecidableEq

structure FusionConfig where
  geometry_iou_threshold : ℚ := 6 / 10
  time_skew_ms : ℚ := 750
  conflict_penalty : ℚ := 75 / 100
  min_confidence : ℚ := 5 / 100

inductive FuseError where
  | valueError (text : String)
  | zeroDivisionError
deriving DecidableEq

/-! ## Fusion -/

/-- What `_anchor_window` compares. -/
def trust (o : Observation) : ℚ ×ₗ ℕ ×ₗ ℚ :=
  toLex (o.confidence, toLex (_SOURCE_RANK o.source, -o.timestamp))

def _anchor_window (observations : List Observation) : Option (ℤ × ℤ) :=
  (observations.argmax trust).map Observation.window

/-- The tuples that `_pick` compares. -/
def Favour : Type := ℚ ×ₗ ℤ ×ₗ ℚ

instance : LinearOrder Favour :=
  @Prod.Lex.instLinearOrder ℚ (ℤ ×ₗ ℚ) _ (@Prod.Lex.instLinearOrder ℤ ℚ Int.instLinearOrder _)

def favour (o : Observation) : Favour :=
  toLex (o.confidence, toLex (o.generation, -o.timestamp))

def _pick (observations : List Observation) (source : Source) : Option Observation :=
  (observations.filter fun o => o.source = source).argmax favour

def showWindow (w : ℤ × ℤ) : String := "(" ++ toString w.1 ++ ", " ++ toString w.2 ++ ")"

def windowConflict (anchor : ℤ × ℤ) (anchor_source : Source) (o : Observation) :
    ObservationConflict where
  kind := CONFLICT_WINDOW_IDENTITY
  a_source := anchor_source.text
  b_source := o.source.text
  detail := "anchor window " ++ showWindow anchor ++ " vs " ++ showWindow o.window
  severity := 1

def generationConflict (freshest : ℤ) (o : Observation) : ObservationConflict where
  kind := CONFLICT_GENERATION
  a_source := o.source.text
  b_source := Source.fused.text
  detail := "generation " ++ toString o.generation ++ " < freshest " ++ toString freshest
  severity := 8 / 10

variable (cfg : FusionConfig)

/-- The boxes of the two are too far apart. -/
def Disagree (p q : Observation) : Prop := p.geometry.iou q.geometry < cfg.geometry_iou_threshold

instance (p q : Observation) : Decidable (Disagree cfg p q) := by
  unfold Disagree; infer_instance

/-- The text of a conflict of boxes. -/
def overlapText (iou : ℚ) : String :=
  "iou=" ++ fixed 2 iou ++ " < " ++ fixed 2 cfg.geometry_iou_threshold

def geometryConflict (p q : Observation) : Option ObservationConflict :=
  if Disagree cfg p q then
    some
      { kind := CONFLICT_GEOMETRY
        a_source := p.source.text
        b_source := q.source.text
        detail := overlapText cfg (p.geometry.iou q.geometry)
        severity := 1 - p.geometry.iou q.geometry }
  else none

/-- The times that are known. -/
def timesOf (l : List Observation) : List ℚ := (l.map Observation.timestamp).filter (· ≠ 0)

def timeConflict (contributors : List Observation) : Except FuseError (List ObservationConflict) :=
  let times := timesOf contributors
  match times.max?, times.min? with
  | some newest, some oldest =>
      if times.length < 2 then .ok []
      else
        let span_ms := (newest - oldest) * 1000
        if cfg.time_skew_ms < span_ms then
          if cfg.time_skew_ms * 4 = 0 then .error .zeroDivisionError
          else
            .ok [{ kind := CONFLICT_TIME
                   a_source := "oldest"
                   b_source := "newest"
                   detail := "span " ++ fixed 0 span_ms ++ "ms > " ++ fixed 0 cfg.time_skew_ms ++ "ms"
                   severity := min 1 (span_ms / (cfg.time_skew_ms * 4)) }]
        else .ok []
  | _, _ => .ok []

/-- The trust in a box. -/
def boxTrust (o : Observation) : ℕ ×ₗ ℚ := toLex (_SOURCE_RANK o.source, o.confidence)

def fused_geometry (contributors : List Observation) : Geometry :=
  let with_geometry :=
    (contributors.filter fun o => o.geometry.valid).insertionSort fun a b => boxTrust b ≤ boxTrust a
  with_geometry.head?.elim {} Observation.geometry

variable (sha256 : String → String)

/-- The part of `fuse` after the anchor is known. -/
def fuseAt (anchor : ℤ × ℤ) (obs : List Observation) : Except FuseError FusionResult := do
  let same_window := obs.filter fun o => o.window = anchor
  let foreign := obs.filter fun o => o.window ≠ anchor
  let anchor_source :=
    ((_pick same_window .ax).or same_window.head?).elim Source.fused Observation.source
  let freshest := (same_window.map Observation.generation).max?.getD 0
  let contributors := same_window.filter fun o => o.generation = freshest
  let stale := same_window.filter fun o => o.generation < freshest
  let geo := contributors.filter fun o => o.geometry.valid
  let late ← timeConflict cfg contributors
  let conflicts := foreign.map (windowConflict anchor anchor_source) ++
    stale.map (generationConflict freshest) ++
    (pairs geo).filterMap (fun p => geometryConflict cfg p.1 p.2) ++ late
  let ax := _pick contributors .ax
  let dib := _pick contributors .dib
  let geometry := fused_geometry contributors
  let nodes := ax.elim [] Observation.semantic_nodes
  let visual := dib.bind Observation.visual_reference
  let base_conf := (contributors.map Observation.confidence).max?.getD 0
  let kinds := (conflicts.map ObservationConflict.kind).dedup
  let conf := max cfg.min_confidence (min 1 (base_conf * cfg.conflict_penalty ^ kinds.length))
  return {
    fused :=
      { source := .fused
        window_id := anchor.1
        app_pid := anchor.2
        generation := freshest
        timestamp := (contributors.map Observation.timestamp).max?.getD 0
        confidence := conf
        geometry
        semantic_nodes := nodes
        visual_reference := visual
        content_hash :=
          _content_hash_for sha256 Source.fused.text anchor freshest geometry nodes visual }
    conflicts := conflicts.insertionSort fun a b => a.key ≤ b.key
    contributors
    stale
    foreign }

def fuse (obs : List Observation) : Except FuseError FusionResult :=
  match _anchor_window obs with
  | none => .error (.valueError "fuse() requires at least one observation")
  | some anchor => fuseAt cfg sha256 anchor obs

end Fusion

end Secdogie.Agent
