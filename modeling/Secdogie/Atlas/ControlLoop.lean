/-
# `Secdogie.Atlas.ControlLoop` — a step of the hybrid control loop

A step looks for its target in the present tree, in the last known one, and in the
memory of the process; then it captures the screen, mutates, captures again, and
passes if enough has changed.

"A no-mutation success is never recorded": but frames without a pixel count as
changed, and so do frames of two sizes.  An action is retried "after insufficient
pixel-diff": but it is retried as well when nothing could be captured after it.
`run_iff` says when neither happens.
-/
import Secdogie.Atlas.ControlTree

namespace Secdogie.Atlas.Hybrid

inductive PrivilegeCode where
  | Ok | Stripped | DeniedWrite | DeniedEmpty | RefusedIdentity | NotElevated | Unsupported
  | BadCommand | NotAllowlisted | NoSession | AccessDenied | DeniedProtected | DeniedEscalate
  | Failed
deriving DecidableEq

structure PrivilegeError where
  code : PrivilegeCode := .Failed
  detail : String
deriving DecidableEq

inductive PerceptionMode where
  | Uia | VisionFallback | Memory
deriving DecidableEq

inductive ActionKind where
  | Invoke | Toggle | Read | Confirm
deriving DecidableEq

inductive StepStatus where
  | Pending | Perceiving | Targeting | SnapshotBefore | Executing | SnapshotAfter | Verifying
  | Confirmed | Retrying | Fallback | Blocked | Failed | Passed
deriving DecidableEq

structure LoopAction where
  id : String
  kind : ActionKind := .Invoke
  selector : Selector
  high_risk : Bool := false
  has_point : Bool := false
  x : ℤ := 0
  y : ℤ := 0

/-- The bytes of a frame, four a pixel: blue, green, red and alpha. -/
structure Framebuffer where
  width : ℤ := 0
  height : ℤ := 0
  bgra : List UInt8 := []
deriving DecidableEq

structure PerceptionSnapshot where
  mode : PerceptionMode := .Uia
  pid : Pid := 0
  controls : List ControlNode := []

/-- What the loop does with `double`s, and what it relies on: nothing added to nothing,
or divided, is nothing. -/
structure Doubles (F : Type) where
  ofInt : ℤ → F
  add : F → F → F
  div : F → F → F
  le : F → F → Bool
  /-- A ratio in percent, with two decimals. -/
  percent : F → String
  zero_add_zero : add (ofInt 0) (ofInt 0) = ofInt 0
  zero_div : ∀ n, 0 < n → div (ofInt 0) (ofInt n) = ofInt 0

structure LoopConfig (F : Type) where
  diff_threshold : F
  max_retries : ℤ := 2
  vision_fallback : Bool := true
  memory_fallback : Bool := true
  operator_confirmed : Bool := false
  capture_pad_px : ℤ := 8
  target_pid : Pid := 0

structure LoopStep (F : Type) where
  action_id : String
  status : StepStatus := .Pending
  mode : PerceptionMode := .Uia
  target_name : Wide := []
  target_bounds : Rect := {}
  diff_ratio : F
  detail : String := ""

/-! ## The difference of two frames -/

section

variable {F : Type} (D : Doubles F)

def absDiff (a b : UInt8) : F := D.ofInt |(a.toNat : ℤ) - b.toNat|

/-- The loop over the pixels, with the sum and how many are visible. -/
def changedLoop : List UInt8 → List UInt8 → F → ℤ → F × ℤ
  | b :: g :: r :: a :: rest, b' :: g' :: r' :: a' :: rest', acc, count =>
      if max a.toNat a'.toNat < 8 then changedLoop rest rest' acc count
      else
        let d := D.add (D.add (absDiff D r r') (absDiff D g g')) (absDiff D b b')
        changedLoop rest rest' (D.add acc (D.div d (D.ofInt 765))) (count + 1)
  | _, _, acc, count => (acc, count)

/-- The frames are of one size. -/
def Sized (a b : Framebuffer) : Prop :=
  a.width = b.width ∧ a.height = b.height ∧ a.bgra.length = b.bgra.length

instance (a b : Framebuffer) : Decidable (Sized a b) := inferInstanceAs (Decidable (_ ∧ _))

/-- `PixelDiff::ChangedRatio` -/
def ChangedRatio (a b : Framebuffer) : F :=
  if ¬ Sized a b then D.ofInt 1
  else if a.bgra.length < 4 then D.ofInt 1
  else
    let (acc, count) := changedLoop D a.bgra b.bgra (D.ofInt 0) 0
    if count = 0 then D.ofInt 0 else D.div acc (D.ofInt count)

end

/-! ## What a step calls -/

/-- A call of the capture or of the execute function. -/
inductive Call where
  | captured (cap : Rect) (got : Except PrivilegeError Framebuffer)
  | executed (target : ControlNode) (got : PrivilegeError)

/-- What the system gives: the snapshot of a process, 0 being the one in front; what the
attempts at inspecting its memory give; and what the calls of the capture and the execute
function give, one after another, if they are wired. -/
structure Surroundings where
  snapshot : Pid → PerceptionSnapshot
  inspect : Pid → ℕ → Except PrivilegeError (List MemoryHit)
  capture : Option (Rect → ℕ → Except PrivilegeError Framebuffer)
  execute : Option (ControlNode → LoopAction → ℕ → PrivilegeError)
  backend : String

/-- A step so far: the steps that the sink was given, and the calls made. -/
structure Progress (F : Type) where
  step : LoopStep F
  sink : List (LoopStep F) := []
  calls : List Call := []

namespace Progress

variable {F : Type} (p : Progress F)

/-- `emit` -/
def emit (st : StepStatus) (detail : String) : Progress F :=
  let step := { p.step with status := st, detail := detail }
  { p with step := step, sink := p.sink ++ [step] }

def withMode (mode : PerceptionMode) : Progress F := { p with step := { p.step with mode := mode } }

def call (c : Call) : Progress F := { p with calls := p.calls ++ [c] }

end Progress

/-! ## The target -/

section

variable {F : Type} (w : Surroundings) (cfg : LoopConfig F) (action : LoopAction)
variable (current last : PerceptionSnapshot)

/-- The target in the present tree. -/
def lookCurrent (p : Progress F) : Progress F × Option ControlNode :=
  match Find current.controls action.selector with
  | some n => (p, some n)
  | none =>
      if action.has_point then
        match HitTest current.controls action.x action.y with
        | some n => (p.emit .Targeting "hit-test current tree (trackpad)", some n)
        | none => (p, none)
      else (p, none)

/-- The target in the last known tree. -/
def lookLast : Option ControlNode :=
  match Find last.controls action.selector with
  | some n => some n
  | none => if action.has_point then HitTest last.controls action.x action.y else none

/-- An inspection that is refused for good. -/
def refusedForGood (code : PrivilegeCode) : Bool :=
  decide (code = .AccessDenied ∨ code = .DeniedProtected ∨ code = .Unsupported ∨
    code = .DeniedEmpty ∨ code = .NoSession)

/-- The attempts at an inspection that are left, from the attempt `i` on. -/
def inspectLoop (inspect : ℕ → Except PrivilegeError (List MemoryHit)) :
    ℕ → ℕ → Except PrivilegeError (List MemoryHit) → Progress F →
      Except PrivilegeError (List MemoryHit) × Progress F
  | 0, _, mem, p => (mem, p)
  | left + 1, i, _, p =>
      match inspect i with
      | .ok hits => (.ok hits, p)
      | .error e =>
          if refusedForGood e.code then (.error e, p)
          else inspectLoop inspect left (i + 1) (.error e)
            (p.emit .Retrying ("memory inspect jitter, retry " ++ toString (i + 1)))

/-- The present tree fused with what was found in memory. -/
def fusedTree (hits : List MemoryHit) : List ControlNode :=
  let seed := if current.controls.isEmpty then last.controls else current.controls
  HybridAsControls (FuseTree seed hits hits.length)

/-- The tree of the memory: what is fused, and every hit. -/
def memoryTree (hits : List MemoryHit) : List ControlNode :=
  fusedTree current last hits ++ hits.map MemoryHitAsControl

def unresolved : String :=
  "No UIA hit, last-known miss, memory inspect did not resolve the selector."

/-- The target in the memory of the process. -/
def lookMemory (p : Progress F) : Progress F × Option (ControlNode × PerceptionMode) :=
  let p := p.emit .Fallback "last-known miss — read-only process memory inspect."
  let pid := if current.pid = 0 then last.pid else current.pid
  if pid = 0 then (p.emit .Failed "No UIA hit and no PID to inspect.", none)
  else
    match inspectLoop (w.inspect pid) 3 0 (.error ⟨.Failed, "pending"⟩) p with
    | (.error e, p) =>
        match Find last.controls action.selector with
        | some n =>
            ((p.emit .Fallback
                "inspect refused after retries — last-known tree (isolated)").withMode .Memory,
              some (n, .Memory))
        | none => (p.emit .Failed ("memory inspect refused: " ++ e.detail), none)
    | (.ok hits, p) =>
        let p := p.withMode .Memory
        match Find (fusedTree current last hits) action.selector with
        | some n => (p, some (n, .Memory))
        | none =>
            match Find (memoryTree current last hits) action.selector with
            | some n => (p, some (n, .Memory))
            | none => (p.emit .Failed unresolved, none)

/-- The target, with the mode it was found in; without one the step has ended. -/
def seek (p : Progress F) : Progress F × Option (ControlNode × PerceptionMode) :=
  match lookCurrent action current p with
  | (p, some n) => (p, some (n, current.mode))
  | (p, none) =>
      let p := p.emit .Fallback "UIA miss — falling back to last-known / vision."
      if cfg.vision_fallback = false then
        (p.emit .Failed "No UIA hit and vision fallback is disarmed.", none)
      else
        let p := p.withMode .VisionFallback
        match lookLast action last with
        | some n => (p, some (n, .VisionFallback))
        | none =>
            if cfg.memory_fallback = false then (p.emit .Failed unresolved, none)
            else lookMemory w action current last p

/-- What is known last, after a target was found. -/
def lastAfter : PerceptionSnapshot :=
  if ¬ current.controls.isEmpty then current
  else if current.pid ≠ 0 then { last with pid := current.pid }
  else last

end

/-! ## The mutation -/

section

variable {F : Type} (D : Doubles F) (w : Surroundings) (cfg : LoopConfig F) (action : LoopAction)

def Inflate (r : Rect) (pad : ℤ) : Rect := ⟨r.x - pad, r.y - pad, r.w + pad * 2, r.h + pad * 2⟩

/-- The attempts at a capture that are left, the next being the call `k`: what the last
of them gave, the number of the next call, and the calls. -/
def captureLoop (capture : ℕ → Except PrivilegeError Framebuffer) (cap : Rect) :
    ℕ → ℕ → Except PrivilegeError Framebuffer → Except PrivilegeError Framebuffer × ℕ × List Call
  | 0, k, got => (got, k, [])
  | left + 1, k, _ =>
      match capture k with
      | .ok fb => (.ok fb, k + 1, [Call.captured cap (.ok fb)])
      | .error e =>
          let (got, k, calls) := captureLoop capture cap left (k + 1) (.error e)
          (got, k, .captured cap (.error e) :: calls)

def captureThrice (capture : ℕ → Except PrivilegeError Framebuffer) (cap : Rect) (k : ℕ) :
    Except PrivilegeError Framebuffer × ℕ × List Call :=
  captureLoop capture cap 3 k (.error ⟨.Failed, "pending"⟩)

/-- The capture before the attempts of a mutation. -/
def precapture (target : ControlNode) (capture : Rect → ℕ → Except PrivilegeError Framebuffer) :
    Except PrivilegeError Framebuffer × ℕ × List Call :=
  let cap := Inflate target.control.bounds cfg.capture_pad_px
  captureThrice (capture cap) cap 0

/-- The execution in the attempt `attempt`, if it is wired; whether it was refused. -/
def runExecute (target : ControlNode) (attempt : ℕ) (p : Progress F) : Progress F × Bool :=
  match w.execute with
  | none => (p, false)
  | some execute =>
      let ex := execute target action attempt
      let p := p.call (.executed target ex)
      if ex.code ≠ .Ok ∧ ex.code ≠ .Stripped then
        (p.emit .Failed ("execute failed: " ++ ex.detail), true)
      else (p, false)

/-- The attempts that are left, from the attempt `attempt` on, the next capture being the
call `k`. -/
def attemptLoop (capture : ℕ → Except PrivilegeError Framebuffer) (cap : Rect)
    (target : ControlNode) (before : Framebuffer) : ℕ → ℕ → ℕ → Progress F → Progress F
  | 0, _, _, p =>
      p.emit .Failed "No visible mutation after retries. Action not committed as success."
  | left + 1, attempt, k, p =>
      let p :=
        if attempt = 0 then p.emit .Executing ("mutate via " ++ w.backend)
        else p.emit .Retrying "Retry after insufficient pixel-diff"
      match runExecute w action target attempt p with
      | (p, true) => p
      | (p, false) =>
          let p := p.emit .SnapshotAfter "Capturing post-action framebuffer."
          let (after, k, calls) := captureThrice capture cap k
          let p := { p with calls := p.calls ++ calls }
          match after with
          | .error e =>
              attemptLoop capture cap target before left (attempt + 1) k
                (p.emit .Retrying ("post-capture jitter: " ++ e.detail))
          | .ok fb =>
              let diff := ChangedRatio D before fb
              let p : Progress F := { p with step := { p.step with diff_ratio := diff } }
              let p := p.emit .Verifying ("Pixel-diff " ++ D.percent diff ++ "%")
              if D.le cfg.diff_threshold diff then p.emit .Passed "UI mutation verified."
              else attemptLoop capture cap target before left (attempt + 1) k p

/-- How many attempts there are. -/
def LoopConfig.attempts : ℕ := (cfg.max_retries + 1).toNat

/-- The step, once it has its target. -/
def mutate (target : ControlNode) (p : Progress F) : Progress F :=
  if action.kind = .Read then
    p.emit .Passed "Read-only: no mutation, no pixel-diff required."
  else
    match w.capture with
    | none => p.emit .Failed "No capture function wired."
    | some capture =>
        let p := p.emit .SnapshotBefore "Capturing pre-action framebuffer."
        let cap := Inflate target.control.bounds cfg.capture_pad_px
        let (before, k, calls) := precapture cfg target capture
        let p := { p with calls := p.calls ++ calls }
        match before with
        | .error e => p.emit .Failed ("pre-capture failed: " ++ e.detail)
        | .ok before =>
            attemptLoop D w cfg action (capture cap) cap target before cfg.attempts 0 k p

/-- What is shown of a target. -/
def showTarget (target : ControlNode) (mode : PerceptionMode) (p : Progress F) : Progress F :=
  let p : Progress F :=
    { p with step := { p.step with mode := mode, target_name := target.control.name,
                                   target_bounds := target.control.bounds } }
  p.emit .Targeting
    (match mode with
      | .Uia => "UIA target"
      | .Memory => "Memory target"
      | .VisionFallback => "Vision target")

/-- What a run gives: the step with its calls, the target if there was one, and what is
known last. -/
structure Ran (F : Type) where
  progress : Progress F
  target : Option ControlNode := none
  last : PerceptionSnapshot

/-- The step as it begins. -/
def start : Progress F :=
  let p : Progress F := { step := { action_id := action.id, diff_ratio := D.ofInt 0 } }
  p.emit .Perceiving "Reading UIA tree and process handles."

/-- `Run` -/
def Run (last : PerceptionSnapshot) : Ran F :=
  let p := start D action
  if action.high_risk = true ∧ cfg.operator_confirmed = false then
    { progress := (p.withMode .Uia).emit .Blocked
        ("High-risk action is gated. Operator confirmation is required even " ++
          "under --auto. The vision model cannot confirm itself.")
      last := last }
  else
    let current := w.snapshot cfg.target_pid
    match seek w cfg action current last p with
    | (p, none) => { progress := p, last := last }
    | (p, some (target, mode)) =>
        { progress := mutate D w cfg action target (showTarget target mode p)
          target := some target
          last := lastAfter current last }

end

/-! ## Frames that differ -/

/-- A pixel: blue, green, red and alpha. -/
def pixelAt (bytes : List UInt8) (i : ℕ) : Option (UInt8 × UInt8 × UInt8 × UInt8) :=
  match bytes.drop (4 * i) with
  | b :: g :: r :: a :: _ => some (b, g, r, a)
  | _ => none

def visible (p : Option (UInt8 × UInt8 × UInt8 × UInt8)) : Bool :=
  p.any fun p => decide (8 ≤ p.2.2.2.toNat)

def colour (p : Option (UInt8 × UInt8 × UInt8 × UInt8)) : Option (UInt8 × UInt8 × UInt8) :=
  p.map fun p => (p.1, p.2.1, p.2.2.1)

/-- A pixel that is visible in one of the two is another in the other. -/
def DiffersAt (xs ys : List UInt8) (i : ℕ) : Prop :=
  (visible (pixelAt xs i) = true ∨ visible (pixelAt ys i) = true) ∧
    colour (pixelAt xs i) ≠ colour (pixelAt ys i)

def Differs (a b : Framebuffer) : Prop := ∃ i, DiffersAt a.bgra b.bgra i

theorem pixelAt_succ (b g r a : UInt8) (rest : List UInt8) (i : ℕ) :
    pixelAt (b :: g :: r :: a :: rest) (i + 1) = pixelAt rest i := rfl

section

variable {F : Type} {D : Doubles F}

theorem absDiff_self (x : UInt8) : absDiff D x x = D.ofInt 0 := by
  rw [absDiff, sub_self, abs_zero]

theorem changedLoop_same : ∀ (xs ys : List UInt8) (count : ℤ),
    (∀ i, ¬ DiffersAt xs ys i) →
      (changedLoop D xs ys (D.ofInt 0) count).1 = D.ofInt 0 ∧
        count ≤ (changedLoop D xs ys (D.ofInt 0) count).2
  | b :: g :: r :: a :: rest, b' :: g' :: r' :: a' :: rest', count, h => by
      have hrest : ∀ i, ¬ DiffersAt rest rest' i := fun i hi => h (i + 1) hi
      rw [changedLoop]
      split
      · exact changedLoop_same rest rest' count hrest
      · next hvisible =>
          have hcolour : (b, g, r) = (b', g', r') := by
            by_contra hne
            refine h 0 ⟨?_, fun heq => hne (Option.some.inj heq)⟩
            rcases le_max_iff.mp (not_lt.mp hvisible) with hle | hle
            · exact .inl (decide_eq_true hle)
            · exact .inr (decide_eq_true hle)
          obtain ⟨rfl, hgr⟩ := Prod.mk.inj hcolour
          obtain ⟨rfl, rfl⟩ := Prod.mk.inj hgr
          dsimp only
          rw [absDiff_self, absDiff_self, absDiff_self, D.zero_add_zero, D.zero_add_zero,
            D.zero_div 765 (by decide), D.zero_add_zero]
          obtain ⟨hacc, hcount⟩ := changedLoop_same rest rest' (count + 1) hrest
          exact ⟨hacc, by omega⟩
  | [], _, count, _ => ⟨rfl, le_refl _⟩
  | [_], _, count, _ => ⟨rfl, le_refl _⟩
  | [_, _], _, count, _ => ⟨rfl, le_refl _⟩
  | [_, _, _], _, count, _ => ⟨rfl, le_refl _⟩
  | _ :: _ :: _ :: _ :: _, [], count, _ => ⟨rfl, le_refl _⟩
  | _ :: _ :: _ :: _ :: _, [_], count, _ => ⟨rfl, le_refl _⟩
  | _ :: _ :: _ :: _ :: _, [_, _], count, _ => ⟨rfl, le_refl _⟩
  | _ :: _ :: _ :: _ :: _, [_, _, _], count, _ => ⟨rfl, le_refl _⟩

/-- Frames of two sizes count as changed, and so do frames without a pixel. -/
theorem ChangedRatio_whole {a b : Framebuffer} (h : ¬ Sized a b ∨ a.bgra.length < 4) :
    ChangedRatio D a b = D.ofInt 1 := by
  rw [ChangedRatio]
  by_cases hsized : Sized a b
  · rw [if_neg (not_not.mpr hsized), if_pos (h.resolve_left (not_not.mpr hsized))]
  · rw [if_pos hsized]

/-- Frames of one size without a visible difference have none. -/
theorem ChangedRatio_same {a b : Framebuffer} (hsized : Sized a b) (hsome : 4 ≤ a.bgra.length)
    (h : ¬ Differs a b) : ChangedRatio D a b = D.ofInt 0 := by
  rw [ChangedRatio, if_neg (not_not.mpr hsized), if_neg (not_lt.mpr hsome)]
  obtain ⟨hacc, hcount⟩ := changedLoop_same (D := D) a.bgra b.bgra 0 fun i hi => h ⟨i, hi⟩
  dsimp only
  split
  · rfl
  · next hne => rw [hacc, D.zero_div _ (by omega)]

end

/-! ## What is said of a step -/

def Call.isExecute : Call → Bool
  | .executed _ _ => true
  | .captured _ _ => false

/-- The frame of a capture, if it is one. -/
def Call.frame : Call → Option Framebuffer
  | .captured _ (.ok fb) => some fb
  | _ => none

/-- A capture that fails. -/
def Call.Fails (c : Call) : Prop := ∃ cap e, c = .captured cap (.error e)

/-- The first frame that was captured. -/
def firstFrame (calls : List Call) : Option Framebuffer := calls.findSome? Call.frame

/-- The frame of the last call. -/
def lastFrame (calls : List Call) : Option Framebuffer := calls.getLast?.bind Call.frame

/-- An execution is free, or else it waits for a frame that shows too little. -/
def Spaced (below : Framebuffer → Bool) : Bool → List Call → Prop
  | _, [] => True
  | free, .executed _ _ :: calls => free = true ∧ Spaced below false calls
  | free, .captured _ (.ok fb) :: calls => Spaced below (free || below fb) calls
  | free, .captured _ (.error _) :: calls => Spaced below free calls

section

variable {F : Type} (D : Doubles F) (w : Surroundings) (cfg : LoopConfig F) (action : LoopAction)
variable (last : PerceptionSnapshot)

/-- The difference is below the threshold. -/
def below (before : Option Framebuffer) (fb : Framebuffer) : Bool :=
  before.any fun before => !D.le cfg.diff_threshold (ChangedRatio D before fb)

/-- A tree that a mode names. -/
inductive Named : PerceptionMode → List ControlNode → Prop
  | present : Named (w.snapshot cfg.target_pid).mode (w.snapshot cfg.target_pid).controls
  | vision : Named .VisionFallback last.controls
  | memory {pid : Pid} {i : ℕ} {hits : List MemoryHit} :
      (pid = (w.snapshot cfg.target_pid).pid ∨ pid = last.pid) → w.inspect pid i = .ok hits →
        Named .Memory (memoryTree (w.snapshot cfg.target_pid) last hits)

/-- A target: a node of a tree that the mode names, which matches the selector or has the
point in its box. -/
def Aimed (mode : PerceptionMode) (n : ControlNode) : Prop :=
  ∃ tree, Named w cfg last mode tree ∧ n ∈ Flatten tree ∧
    (NodeMatches n.control action.selector = true ∨
      action.has_point = true ∧ RectContains n.control.bounds action.x action.y = true)

/-- The frames before and after the executions are not empty and differ visibly. -/
def Verified (calls : List Call) : Prop :=
  ∃ tries cap before more after, calls = tries ++ Call.captured cap (.ok before) :: more ∧
    (∀ c ∈ tries, c.Fails) ∧ lastFrame more = some after ∧
      4 ≤ before.bgra.length ∧ 4 ≤ after.bgra.length ∧ Differs before after

/-- What is said of every run. -/
structure Sound (r : Ran F) : Prop where
  gated : (∃ c ∈ r.progress.calls, c.isExecute = true) →
    action.high_risk = false ∨ cfg.operator_confirmed = true
  bounded : r.progress.calls.countP Call.isExecute ≤ cfg.attempts
  again : Spaced (below D cfg (firstFrame r.progress.calls)) true r.progress.calls
  passed : r.progress.step.status = .Passed → action.kind ≠ .Read → Verified r.progress.calls
  aimed : ∀ n, r.target = some n → Aimed w cfg action last r.progress.step.mode n ∧
    r.progress.step.target_name = n.control.name ∧
      r.progress.step.target_bounds = n.control.bounds

/-! ## When a step is as it is said to be -/

/-- Two frames of which enough is known: both have a pixel, and they differ visibly, as they
do where they are of one size and the threshold is above nothing. -/
def Telling (before after : Framebuffer) : Prop :=
  4 ≤ before.bgra.length ∧ 4 ≤ after.bgra.length ∧
    (Sized before after ∧ D.le cfg.diff_threshold (D.ofInt 0) = false ∨ Differs before after)

/-- The execution in the attempt is refused. -/
def refuses (target : ControlNode) (attempt : ℕ) : Bool :=
  w.execute.any fun execute =>
    decide ((execute target action attempt).code ≠ .Ok ∧
      (execute target action attempt).code ≠ .Stripped)

/-- In the attempts that are left: after each execution but the last there is a frame, and
the frame that passes is telling. -/
def Clears (capture : ℕ → Except PrivilegeError Framebuffer) (cap : Rect) (target : ControlNode)
    (before : Framebuffer) : ℕ → ℕ → ℕ → Prop
  | 0, _, _ => True
  | left + 1, attempt, k =>
      if refuses w action target attempt then True
      else
        match captureThrice capture cap k with
        | (.error _, k, _) =>
            (w.execute = none ∨ left = 0) ∧
              Clears capture cap target before left (attempt + 1) k
        | (.ok fb, k, _) =>
            if D.le cfg.diff_threshold (ChangedRatio D before fb) then Telling D cfg before fb
            else Clears capture cap target before left (attempt + 1) k

/-- What the system gives lets the step be sound, if it comes to a mutation. -/
def Lets : Prop :=
  (action.high_risk = true → cfg.operator_confirmed = true) → action.kind ≠ .Read →
    ∀ target mode capture before k calls,
      (seek w cfg action (w.snapshot cfg.target_pid) last (start D action)).2 =
        some (target, mode) →
      w.capture = some capture →
      precapture cfg target capture = (.ok before, k, calls) →
      Clears D w cfg action (capture (Inflate target.control.bounds cfg.capture_pad_px))
        (Inflate target.control.bounds cfg.capture_pad_px) target before cfg.attempts 0 k

end

/-! ## The target is aimed at -/

section

variable {F : Type} {D : Doubles F} {w : Surroundings} {cfg : LoopConfig F} {action : LoopAction}
variable {last : PerceptionSnapshot}

theorem Aimed.find {mode : PerceptionMode} {tree roots : List ControlNode} {n : ControlNode}
    (hnamed : Named w cfg last mode tree) (hsub : Flatten roots ⊆ Flatten tree)
    (h : Find roots action.selector = some n) : Aimed w cfg action last mode n :=
  ⟨tree, hnamed, hsub (Find_some h).1, .inl (Find_some h).2⟩

theorem Aimed.hit {mode : PerceptionMode} {tree : List ControlNode} {n : ControlNode}
    (hnamed : Named w cfg last mode tree) (hpoint : action.has_point = true)
    (h : HitTest tree action.x action.y = some n) : Aimed w cfg action last mode n :=
  ⟨tree, hnamed, (HitTest_some h).1, .inr ⟨hpoint, (HitTest_some h).2⟩⟩

theorem lookCurrent_some {p : Progress F} {n : ControlNode}
    (h : (lookCurrent action (w.snapshot cfg.target_pid) p).2 = some n) :
    Aimed w cfg action last (w.snapshot cfg.target_pid).mode n := by
  rw [lookCurrent] at h
  split at h
  · next m hfind =>
      obtain rfl := Option.some.inj h
      exact .find .present (List.Subset.refl _) hfind
  · split at h
    · next hpoint =>
        split at h
        · next m hhit =>
            obtain rfl := Option.some.inj h
            exact .hit .present hpoint hhit
        · exact nomatch h
    · exact nomatch h

theorem lookLast_some {n : ControlNode} (h : lookLast action last = some n) :
    Aimed w cfg action last .VisionFallback n := by
  rw [lookLast] at h
  split at h
  · next m hfind =>
      obtain rfl := Option.some.inj h
      exact .find .vision (List.Subset.refl _) hfind
  · split at h
    · next hpoint => exact .hit .vision hpoint h
    · exact nomatch h

theorem lookLast_none (h : lookLast action last = none) :
    Find last.controls action.selector = none := by
  rw [lookLast] at h
  split at h
  · exact nomatch h
  · next hfind => exact hfind

theorem lookCurrent_calls (current : PerceptionSnapshot) (p : Progress F) :
    (lookCurrent action current p).1.calls = p.calls := by
  rw [lookCurrent]
  split
  · rfl
  · split
    · split
      · rfl
      · rfl
    · rfl

/-- An inspection calls nothing, and gives what one of its attempts gave. -/
theorem inspectLoop_spec (inspect : ℕ → Except PrivilegeError (List MemoryHit)) :
    ∀ (left i : ℕ) (mem : Except PrivilegeError (List MemoryHit)) (p : Progress F),
      (∀ hits, mem ≠ .ok hits) →
        (inspectLoop inspect left i mem p).2.calls = p.calls ∧
          ∀ hits, (inspectLoop inspect left i mem p).1 = .ok hits → ∃ j, inspect j = .ok hits := by
  intro left
  induction left with
  | zero => exact fun i mem p hmem => ⟨rfl, fun hits h => absurd h (hmem hits)⟩
  | succ left ih =>
      intro i mem p hmem
      rw [inspectLoop]
      split
      · next hits hok =>
          refine ⟨rfl, fun hits' h => ⟨i, ?_⟩⟩
          rw [hok]
          exact h
      · split
        · exact ⟨rfl, fun hits h => nomatch h⟩
        · obtain ⟨hcalls, hgot⟩ := ih (i + 1) (.error _)
            (p.emit .Retrying ("memory inspect jitter, retry " ++ toString (i + 1)))
            (fun hits h => nomatch h)
          exact ⟨hcalls, hgot⟩

theorem Flatten_append : ∀ ns ms : List ControlNode, Flatten (ns ++ ms) = Flatten ns ++ Flatten ms
  | [], _ => rfl
  | n :: ns, ms => by
      rw [List.cons_append, Flatten, Flatten, Flatten_append ns ms, List.append_assoc]

/-- What a search comes to: it calls nothing; it ends in a target, or the step has failed. -/
structure Sought (w : Surroundings) (cfg : LoopConfig F) (action : LoopAction)
    (last : PerceptionSnapshot) (p : Progress F)
    (got : Progress F × Option (ControlNode × PerceptionMode)) : Prop where
  calls : got.1.calls = p.calls
  failed : got.2 = none → got.1.step.status = .Failed
  aimed : ∀ n mode, got.2 = some (n, mode) → Aimed w cfg action last mode n

theorem sought_failed {p q : Progress F} (hcalls : q.calls = p.calls) (detail : String) :
    Sought w cfg action last p (q.emit .Failed detail, none) :=
  ⟨hcalls, fun _ => rfl, fun _ _ h => nomatch h⟩

theorem sought_aimed {p q : Progress F} {n : ControlNode} {mode : PerceptionMode}
    (hcalls : q.calls = p.calls) (h : Aimed w cfg action last mode n) :
    Sought w cfg action last p (q, some (n, mode)) := by
  refine ⟨hcalls, (fun h => nomatch h), fun n' mode' heq => ?_⟩
  obtain ⟨rfl, rfl⟩ := Prod.mk.inj (Option.some.inj heq)
  exact h

theorem lookMemory_sought (p : Progress F) (hlast : Find last.controls action.selector = none) :
    Sought w cfg action last p
      (lookMemory w action (w.snapshot cfg.target_pid) last p) := by
  rw [lookMemory]
  dsimp only
  generalize hpid : (if (w.snapshot cfg.target_pid).pid = 0 then last.pid
    else (w.snapshot cfg.target_pid).pid) = pid
  have hof : pid = (w.snapshot cfg.target_pid).pid ∨ pid = last.pid := by
    split at hpid
    · exact .inr hpid.symm
    · exact .inl hpid.symm
  generalize hq : p.emit StepStatus.Fallback
    "last-known miss — read-only process memory inspect." = q
  have hqcalls : q.calls = p.calls := hq ▸ rfl
  by_cases hzero : pid = 0
  · rw [if_pos hzero]
    exact sought_failed hqcalls _
  · rw [if_neg hzero]
    obtain ⟨hcalls, hgot⟩ := inspectLoop_spec (w.inspect pid) 3 0
      (.error ⟨.Failed, "pending"⟩) q (fun hits h => nomatch h)
    generalize inspectLoop (w.inspect pid) 3 0 (.error ⟨.Failed, "pending"⟩) q = got
      at hcalls hgot ⊢
    obtain ⟨mem, q'⟩ := got
    have hq' : q'.calls = p.calls := hcalls.trans hqcalls
    cases mem with
    | error e =>
        rw [hlast]
        exact sought_failed hq' _
    | ok hits =>
        obtain ⟨i, hi⟩ := hgot hits rfl
        have hnamed : Named w cfg last .Memory
            (memoryTree (w.snapshot cfg.target_pid) last hits) := .memory hof hi
        have hsub : Flatten (fusedTree (w.snapshot cfg.target_pid) last hits) ⊆
            Flatten (memoryTree (w.snapshot cfg.target_pid) last hits) := by
          rw [memoryTree, Flatten_append]
          exact List.subset_append_left _ _
        cases hfused : Find (fusedTree (w.snapshot cfg.target_pid) last hits) action.selector with
        | some n =>
            dsimp only
            rw [hfused]
            exact sought_aimed hq' (.find hnamed hsub hfused)
        | none =>
            dsimp only
            rw [hfused]
            cases hmem : Find (memoryTree (w.snapshot cfg.target_pid) last hits)
                action.selector with
            | some n => exact sought_aimed hq' (.find hnamed (List.Subset.refl _) hmem)
            | none =>
                refine sought_failed ?_ _
                exact hq'

/-- The step lemma of the search. -/
theorem seek_sought (p : Progress F) :
    Sought w cfg action last p (seek w cfg action (w.snapshot cfg.target_pid) last p) := by
  rw [seek]
  have hcalls := @lookCurrent_calls F action (w.snapshot cfg.target_pid) p
  have hfound := fun n => @lookCurrent_some F w cfg action last p n
  generalize lookCurrent action (w.snapshot cfg.target_pid) p = got at hcalls hfound ⊢
  obtain ⟨q, found⟩ := got
  cases found with
  | some n => exact sought_aimed hcalls (hfound n rfl)
  | none =>
      dsimp only at hcalls ⊢
      split
      · refine sought_failed ?_ _
        exact hcalls
      · split
        · next n hlook => exact sought_aimed hcalls (lookLast_some hlook)
        · next hlook =>
            split
            · refine sought_failed ?_ _
              exact hcalls
            · obtain ⟨h₁, h₂, h₃⟩ := @lookMemory_sought F w cfg action last
                (((q.emit .Fallback "UIA miss — falling back to last-known / vision.").withMode
                  .VisionFallback)) (lookLast_none hlook)
              exact ⟨h₁.trans hcalls, h₂, h₃⟩

end

/-! ## What the calls of a mutation are -/

theorem countP_fails {calls : List Call} (h : ∀ c ∈ calls, c.Fails) :
    calls.countP Call.isExecute = 0 := by
  refine List.countP_eq_zero.mpr fun c hc => ?_
  obtain ⟨cap, e, rfl⟩ := h c hc
  exact Bool.false_ne_true

theorem countP_frame {tries : List Call} {cap : Rect} {fb : Framebuffer}
    (h : ∀ c ∈ tries, c.Fails) :
    (tries ++ [Call.captured cap (.ok fb)]).countP Call.isExecute = 0 := by
  rw [List.countP_append, countP_fails h]
  rfl

theorem spaced_fails {b : Framebuffer → Bool} {free : Bool} {calls : List Call} :
    ∀ {tries : List Call}, (∀ c ∈ tries, c.Fails) →
      (Spaced b free (tries ++ calls) ↔ Spaced b free calls) := by
  intro tries
  induction tries with
  | nil => exact fun _ => Iff.rfl
  | cons c tries ih =>
      intro h
      obtain ⟨cap, e, rfl⟩ := h c List.mem_cons_self
      exact ih fun c hc => h c (List.mem_cons_of_mem _ hc)

theorem lastFrame_append {calls more : List Call} {fb : Framebuffer}
    (h : lastFrame more = some fb) : lastFrame (calls ++ more) = some fb := by
  rw [lastFrame] at h ⊢
  cases hlast : more.getLast? with
  | none =>
      rw [hlast] at h
      exact nomatch h
  | some c =>
      rw [List.getLast?_append, hlast, Option.some_or]
      rwa [hlast] at h

theorem lastFrame_append_iff {calls more : List Call} (hne : more ≠ []) :
    lastFrame (calls ++ more) = lastFrame more := by
  rw [lastFrame, lastFrame, List.getLast?_append]
  obtain ⟨c, hc⟩ := Option.ne_none_iff_exists'.mp (mt List.getLast?_eq_none_iff.mp hne)
  rw [hc, Option.some_or]

/-- A capture that is tried again and again: all fail, or all but the last. -/
theorem captureLoop_spec (capture : ℕ → Except PrivilegeError Framebuffer) (cap : Rect) :
    ∀ (left k : ℕ) (got : Except PrivilegeError Framebuffer), (∀ fb, got ≠ .ok fb) →
      match captureLoop capture cap left k got with
      | (.ok fb, _, calls) =>
          ∃ tries, calls = tries ++ [Call.captured cap (.ok fb)] ∧ ∀ c ∈ tries, c.Fails
      | (.error _, _, calls) => ∀ c ∈ calls, c.Fails := by
  intro left
  induction left with
  | zero =>
      intro k got hgot
      rw [captureLoop]
      cases got with
      | ok fb => exact absurd rfl (hgot fb)
      | error e => exact fun c hc => nomatch hc
  | succ left ih =>
      intro k got _
      rw [captureLoop]
      cases hk : capture k with
      | ok fb => exact ⟨[], rfl, fun c hc => nomatch hc⟩
      | error e =>
          dsimp only
          have hrest := ih (k + 1) (.error e) (fun fb h => nomatch h)
          generalize captureLoop capture cap left (k + 1) (.error e) = rest at hrest ⊢
          obtain ⟨got', k', calls⟩ := rest
          cases got' with
          | ok fb =>
              obtain ⟨tries, rfl, htries⟩ := hrest
              refine ⟨.captured cap (.error e) :: tries, rfl, ?_⟩
              exact List.forall_mem_cons.mpr ⟨⟨cap, e, rfl⟩, htries⟩
          | error e' => exact List.forall_mem_cons.mpr ⟨⟨cap, e, rfl⟩, hrest⟩

section

variable {F : Type} {D : Doubles F} {w : Surroundings} {cfg : LoopConfig F} {action : LoopAction}

/-- A frame that passes differs visibly just where it is telling. -/
theorem telling_iff {before after : Framebuffer}
    (hpass : D.le cfg.diff_threshold (ChangedRatio D before after) = true) :
    Telling D cfg before after ↔
      4 ≤ before.bgra.length ∧ 4 ≤ after.bgra.length ∧ Differs before after := by
  rw [Telling]
  refine and_congr_right fun hbefore => and_congr_right fun _ => ⟨?_, .inr⟩
  rintro (⟨hsized, hthreshold⟩ | hdiffers)
  · by_contra hsame
    rw [ChangedRatio_same hsized hbefore hsame] at hpass
    cases hpass.symm.trans hthreshold
  · exact hdiffers

/-- The calls of an execution: one if it is wired, none otherwise. -/
def Executes (w : Surroundings) (target : ControlNode) (execs : List Call) : Prop :=
  w.execute = none ∧ execs = [] ∨ w.execute ≠ none ∧ ∃ got, execs = [Call.executed target got]

theorem Executes.count {target : ControlNode} {execs : List Call} (h : Executes w target execs) :
    execs.countP Call.isExecute ≤ 1 := by
  rcases h with ⟨-, rfl⟩ | ⟨-, got, rfl⟩
  · exact Nat.zero_le _
  · exact List.countP_le_length

theorem Executes.starts {target : ControlNode} {execs : List Call} (h : Executes w target execs)
    (hwired : w.execute ≠ none) (more : List Call) :
    ∃ target got rest, execs ++ more = .executed target got :: rest := by
  rcases h with ⟨hnone, -⟩ | ⟨-, got, rfl⟩
  · exact absurd hnone hwired
  · exact ⟨target, got, more, rfl⟩

theorem Executes.spaced {target : ControlNode} {execs : List Call} (h : Executes w target execs)
    {b : Framebuffer → Bool} {more : List Call} (hmore : ∀ free, Spaced b free more) :
    Spaced b true (execs ++ more) := by
  rcases h with ⟨-, rfl⟩ | ⟨-, got, rfl⟩
  · exact hmore true
  · exact ⟨rfl, hmore false⟩

/-- An execution: the call, if there is one, and whether it is refused. -/
theorem runExecute_spec (target : ControlNode) (attempt : ℕ) (p : Progress F) :
    ∃ execs, (runExecute w action target attempt p).1.calls = p.calls ++ execs ∧
      (runExecute w action target attempt p).2 = refuses w action target attempt ∧
      Executes w target execs ∧
      (refuses w action target attempt = true →
        (runExecute w action target attempt p).1.step.status = .Failed) := by
  rw [runExecute, refuses]
  cases hwired : w.execute with
  | none => exact ⟨[], (List.append_nil _).symm, rfl, .inl ⟨hwired, rfl⟩, (fun h => nomatch h)⟩
  | some execute =>
      have hne : w.execute ≠ none := hwired ▸ Option.some_ne_none execute
      refine ⟨[Call.executed target (execute target action attempt)], ?_, ?_, .inr ⟨hne, _, rfl⟩, ?_⟩
      · dsimp only
        split
        · rfl
        · rfl
      · dsimp only [Option.any_some]
        split
        · next h => exact (decide_eq_true h).symm
        · next h => exact (decide_eq_false h).symm
      · intro h
        dsimp only [Option.any_some] at h ⊢
        rw [if_pos (of_decide_eq_true h)]
        rfl

/-- What is said of the calls that are made from an attempt on. -/
def Good (D : Doubles F) (cfg : LoopConfig F) (before : Framebuffer) (more : List Call)
    (status : StepStatus) : Prop :=
  Spaced (below D cfg (some before)) true more ∧
    (status = .Passed → ∃ after, lastFrame more = some after ∧
      4 ≤ before.bgra.length ∧ 4 ≤ after.bgra.length ∧ Differs before after)

/-- The calls that are made from an attempt on. -/
structure Attempted (D : Doubles F) (w : Surroundings) (cfg : LoopConfig F) (before : Framebuffer)
    (left : ℕ) (clears : Prop) (p q : Progress F) (more : List Call) : Prop where
  calls : q.calls = p.calls ++ more
  count : more.countP Call.isExecute ≤ left
  starts : w.execute ≠ none → left ≠ 0 → ∃ target got rest, more = .executed target got :: rest
  ends : q.step.status = .Passed → more ≠ []
  stops : left = 0 → more = []
  good : Good D cfg before more q.step.status ↔ clears

/-- The calls of an attempt that ends without a frame, and of those after it. -/
theorem Attempted.jitter {before : Framebuffer} {left : ℕ} {clears : Prop} {p p' q : Progress F}
    {execs calls more : List Call} {target : ControlNode}
    (hmore : Attempted D w cfg before left clears p' q more)
    (hcalls : p'.calls = p.calls ++ execs ++ calls) (hfails : ∀ c ∈ calls, c.Fails)
    (hexecs : Executes w target execs) :
    Attempted D w cfg before (left + 1) ((w.execute = none ∨ left = 0) ∧ clears) p q
      (execs ++ calls ++ more) where
  calls := by rw [hmore.calls, hcalls, List.append_assoc, List.append_assoc, List.append_assoc]
  count := by
    have hcount := hmore.count
    have hone := hexecs.count
    rw [List.countP_append, List.countP_append, countP_fails hfails]
    omega
  starts := fun hwired _ => List.append_assoc _ _ _ ▸ hexecs.starts hwired (calls ++ more)
  ends := fun h hnil => hmore.ends h (List.append_eq_nil_iff.mp hnil).2
  stops := fun h => nomatch h
  good := by
    have hlast : q.step.status = .Passed →
        ∀ xs : List Call, lastFrame (xs ++ more) = lastFrame more :=
      fun h xs => lastFrame_append_iff (hmore.ends h)
    rcases hexecs with ⟨hnone, rfl⟩ | ⟨hwired, got, rfl⟩
    · have hclears : (w.execute = none ∨ left = 0) ∧ clears ↔ clears :=
        ⟨And.right, fun h => ⟨.inl hnone, h⟩⟩
      rw [hclears, ← hmore.good, List.nil_append]
      refine and_congr (spaced_fails hfails) (forall_congr' fun h => ?_)
      rw [hlast h]
    · have hspaced : Spaced (below D cfg (some before)) true
          ([Call.executed target got] ++ calls ++ more) ↔
          Spaced (below D cfg (some before)) false more :=
        (and_iff_right rfl).trans (spaced_fails hfails)
      by_cases hleft : left = 0
      · obtain rfl := hmore.stops hleft
        rw [List.append_nil] at hspaced ⊢
        refine iff_of_true ⟨hspaced.mpr trivial, fun h => absurd rfl (hmore.ends h)⟩
          ⟨.inr hleft, ?_⟩
        exact hmore.good.mp ⟨trivial, fun h => absurd rfl (hmore.ends h)⟩
      · -- the next attempt executes again, with no frame in between
        obtain ⟨target', got', rest, rfl⟩ := hmore.starts hwired hleft
        refine iff_of_false (fun hgood => ?_) fun h => h.1.elim hwired hleft
        exact nomatch (hspaced.mp hgood.1).1

/-- The calls of an attempt that ends with a frame, and of those after it. -/
theorem Attempted.shows {before fb : Framebuffer} {left : ℕ} {clears : Prop} {p p' q : Progress F}
    {execs tries more : List Call} {target : ControlNode} {cap : Rect}
    (hmore : Attempted D w cfg before left clears p' q more)
    (hcalls : p'.calls = p.calls ++ execs ++ (tries ++ [Call.captured cap (.ok fb)]))
    (hfails : ∀ c ∈ tries, c.Fails)
    (hexecs : Executes w target execs)
    (hbelow : below D cfg (some before) fb = true) :
    Attempted D w cfg before (left + 1) clears p q
      (execs ++ (tries ++ [Call.captured cap (.ok fb)]) ++ more) where
  calls := by
    rw [hmore.calls, hcalls]
    simp only [List.append_assoc]
  count := by
    have hcount := hmore.count
    have hone := hexecs.count
    rw [List.countP_append, List.countP_append, countP_frame hfails]
    omega
  starts := by
    intro hwired _
    rw [List.append_assoc]
    exact hexecs.starts hwired _
  ends := fun h hnil => hmore.ends h (List.append_eq_nil_iff.mp hnil).2
  stops := fun h => nomatch h
  good := by
    rw [← hmore.good]
    have hspaced : Spaced (below D cfg (some before)) true
        (execs ++ (tries ++ [Call.captured cap (.ok fb)]) ++ more) ↔
        Spaced (below D cfg (some before)) true more := by
      have hframe : ∀ free : Bool, Spaced (below D cfg (some before)) free
          (tries ++ ([Call.captured cap (.ok fb)] ++ more)) ↔
          Spaced (below D cfg (some before)) true more := by
        intro free
        rw [spaced_fails hfails]
        show Spaced _ (free || below D cfg (some before) fb) more ↔ _
        rw [hbelow, Bool.or_true]
      rw [List.append_assoc, List.append_assoc]
      rcases hexecs with ⟨-, rfl⟩ | ⟨-, got, rfl⟩
      · exact hframe true
      · exact (and_iff_right rfl).trans (hframe false)
    refine and_congr hspaced (forall_congr' fun h => ?_)
    rw [lastFrame_append_iff (hmore.ends h)]

/-- The calls of an attempt that passes. -/
theorem Attempted.passes {before fb : Framebuffer} {left : ℕ} {p q : Progress F}
    {execs tries : List Call} {target : ControlNode} {cap : Rect}
    (hcalls : q.calls = p.calls ++ (execs ++ (tries ++ [Call.captured cap (.ok fb)])))
    (hfails : ∀ c ∈ tries, c.Fails)
    (hexecs : Executes w target execs)
    (hpass : D.le cfg.diff_threshold (ChangedRatio D before fb) = true)
    (hstatus : q.step.status = .Passed) :
    Attempted D w cfg before (left + 1) (Telling D cfg before fb) p q
      (execs ++ (tries ++ [Call.captured cap (.ok fb)])) where
  calls := hcalls
  count := by
    have hone := hexecs.count
    rw [List.countP_append, countP_frame hfails]
    omega
  starts := fun hwired _ => hexecs.starts hwired _
  ends := by
    intro _ hnil
    exact List.cons_ne_nil _ _ (List.append_eq_nil_iff.mp (List.append_eq_nil_iff.mp hnil).2).2
  stops := fun h => nomatch h
  good := by
    have hlast : lastFrame (execs ++ (tries ++ [Call.captured cap (.ok fb)])) = some fb :=
      lastFrame_append (lastFrame_append rfl)
    have hspaced : Spaced (below D cfg (some before)) true
        (execs ++ (tries ++ [Call.captured cap (.ok fb)])) :=
      hexecs.spaced fun _ => (spaced_fails hfails).mpr trivial
    rw [telling_iff hpass]
    constructor
    · intro hgood
      obtain ⟨after, hafter, h⟩ := hgood.2 hstatus
      obtain rfl := Option.some.inj (hlast.symm.trans hafter)
      exact h
    · exact fun h => ⟨hspaced, fun _ => ⟨fb, hlast, h⟩⟩

/-- The loop, from any attempt on. -/
theorem attemptLoop_spec (capture : ℕ → Except PrivilegeError Framebuffer) (cap : Rect)
    (target : ControlNode) (before : Framebuffer) : ∀ (left attempt k : ℕ) (p : Progress F),
    ∃ more, Attempted D w cfg before left
      (Clears D w cfg action capture cap target before left attempt k) p
      (attemptLoop D w cfg action capture cap target before left attempt k p) more := by
  intro left
  induction left with
  | zero =>
      intro attempt k p
      rw [attemptLoop]
      refine ⟨[], (List.append_nil _).symm, Nat.le_refl 0, fun _ h => absurd rfl h,
        (fun h => nomatch h), fun _ => rfl, ?_⟩
      exact iff_of_true ⟨trivial, fun h => nomatch h⟩ trivial
  | succ left ih =>
      intro attempt k p
      rw [attemptLoop, Clears]
      generalize hp₀ : (if attempt = 0 then p.emit .Executing ("mutate via " ++ w.backend)
        else p.emit .Retrying "Retry after insufficient pixel-diff") = p₀
      have hcalls₀ : p₀.calls = p.calls := by
        rw [← hp₀]
        split
        · rfl
        · rfl
      obtain ⟨execs, hrun, hsecond, hexecs, hfailed⟩ :=
        @runExecute_spec F w action target attempt p₀
      generalize runExecute w action target attempt p₀ = ran at hrun hsecond hfailed ⊢
      obtain ⟨p₁, stop⟩ := ran
      dsimp only at hrun hsecond hfailed
      rw [hcalls₀] at hrun
      subst hsecond
      cases hrefuses : refuses w action target attempt with
      | true =>
          dsimp only
          have hstatus := hfailed hrefuses
          refine ⟨execs, hrun, ?_, ?_, ?_, (fun h => nomatch h), ?_⟩
          · exact hexecs.count.trans (Nat.le_add_left 1 left)
          · exact fun hwired _ => List.append_nil execs ▸ hexecs.starts hwired []
          · exact fun h => nomatch hstatus.symm.trans h
          · rw [if_pos rfl]
            refine iff_of_true ⟨?_, fun h => nomatch hstatus.symm.trans h⟩ trivial
            exact List.append_nil execs ▸ hexecs.spaced fun _ => trivial
      | false =>
          rw [if_neg Bool.false_ne_true]
          dsimp only
          have hspec := captureLoop_spec capture cap 3 k (.error ⟨.Failed, "pending"⟩)
            (fun fb h => nomatch h)
          rw [captureThrice]
          generalize captureLoop capture cap 3 k (.error ⟨.Failed, "pending"⟩) = got at hspec ⊢
          obtain ⟨after, k', calls⟩ := got
          cases after with
          | error e =>
              obtain ⟨more, hmore⟩ := ih (attempt + 1) k' _
              exact ⟨_, hmore.jitter (congrArg (· ++ calls) hrun) hspec hexecs⟩
          | ok fb =>
              obtain ⟨tries, rfl, htries⟩ := hspec
              dsimp only
              by_cases hpass : D.le cfg.diff_threshold (ChangedRatio D before fb) = true
              · rw [if_pos hpass, if_pos hpass]
                have hcalls : p₁.calls ++ (tries ++ [Call.captured cap (.ok fb)]) =
                    p.calls ++ (execs ++ (tries ++ [Call.captured cap (.ok fb)])) := by
                  rw [hrun, List.append_assoc]
                exact ⟨_, .passes hcalls htries hexecs hpass rfl⟩
              · rw [if_neg hpass, if_neg hpass]
                obtain ⟨more, hmore⟩ := ih (attempt + 1) k' _
                refine ⟨_, hmore.shows (congrArg (· ++ _) hrun) htries hexecs ?_⟩
                rw [below, Option.any_some, Bool.eq_false_iff.mpr hpass]
                rfl

end

/-! ## The whole step -/

theorem firstFrame_eq {tries more : List Call} {cap : Rect} {fb : Framebuffer}
    (h : ∀ c ∈ tries, c.Fails) :
    firstFrame (tries ++ Call.captured cap (.ok fb) :: more) = some fb := by
  induction tries with
  | nil => rfl
  | cons c tries ih =>
      obtain ⟨cap', e, rfl⟩ := h c List.mem_cons_self
      exact ih fun c hc => h c (List.mem_cons_of_mem _ hc)

section

variable {F : Type} {D : Doubles F} {w : Surroundings} {cfg : LoopConfig F} {action : LoopAction}

/-- What is shown of the target stays. -/
structure SameTarget (p q : Progress F) : Prop where
  mode : q.step.mode = p.step.mode
  name : q.step.target_name = p.step.target_name
  bounds : q.step.target_bounds = p.step.target_bounds

theorem SameTarget.trans {p q r : Progress F} (h : SameTarget p q) (h' : SameTarget q r) :
    SameTarget p r :=
  ⟨h'.mode.trans h.mode, h'.name.trans h.name, h'.bounds.trans h.bounds⟩

theorem runExecute_same (target : ControlNode) (attempt : ℕ) (p : Progress F) :
    SameTarget p (runExecute w action target attempt p).1 := by
  rw [runExecute]
  split
  · exact ⟨rfl, rfl, rfl⟩
  · dsimp only
    split
    · exact ⟨rfl, rfl, rfl⟩
    · exact ⟨rfl, rfl, rfl⟩

theorem attemptLoop_same (capture : ℕ → Except PrivilegeError Framebuffer) (cap : Rect)
    (target : ControlNode) (before : Framebuffer) : ∀ (left attempt k : ℕ) (p : Progress F),
    SameTarget p (attemptLoop D w cfg action capture cap target before left attempt k p) := by
  intro left
  induction left with
  | zero => exact fun attempt k p => ⟨rfl, rfl, rfl⟩
  | succ left ih =>
      intro attempt k p
      rw [attemptLoop]
      generalize hp₀ : (if attempt = 0 then p.emit .Executing ("mutate via " ++ w.backend)
        else p.emit .Retrying "Retry after insufficient pixel-diff") = p₀
      have hsame₀ : SameTarget p p₀ := by
        rw [← hp₀]
        split
        · exact ⟨rfl, rfl, rfl⟩
        · exact ⟨rfl, rfl, rfl⟩
      have hsame := hsame₀.trans (@runExecute_same F w action target attempt p₀)
      generalize runExecute w action target attempt p₀ = ran at hsame ⊢
      obtain ⟨p₁, stop⟩ := ran
      cases stop with
      | true => exact hsame
      | false =>
          dsimp only
          generalize captureThrice capture cap k = got
          obtain ⟨after, k', calls⟩ := got
          have hsame₁ : SameTarget p p₁ := hsame
          cases after with
          | error e =>
              refine SameTarget.trans ?_ (ih (attempt + 1) k' _)
              exact ⟨hsame₁.1, hsame₁.2, hsame₁.3⟩
          | ok fb =>
              dsimp only
              split
              · exact ⟨hsame₁.1, hsame₁.2, hsame₁.3⟩
              · refine SameTarget.trans ?_ (ih (attempt + 1) k' _)
                exact ⟨hsame₁.1, hsame₁.2, hsame₁.3⟩

/-- The frames of a run that captured one before its attempts. -/
theorem verified_iff {tries more : List Call} {cap : Rect} {before : Framebuffer}
    (htries : ∀ c ∈ tries, c.Fails) (hmore : more ≠ []) :
    Verified (tries ++ Call.captured cap (.ok before) :: more) ↔
      ∃ after, lastFrame more = some after ∧
        4 ≤ before.bgra.length ∧ 4 ≤ after.bgra.length ∧ Differs before after := by
  constructor
  · rintro ⟨tries', cap', before', more', after, heq, htries', hlast, h⟩
    have hfirst : firstFrame (tries ++ Call.captured cap (.ok before) :: more) = some before :=
      firstFrame_eq htries
    rw [heq, firstFrame_eq htries'] at hfirst
    obtain rfl := Option.some.inj hfirst
    refine ⟨after, ?_, h⟩
    have hwhole : lastFrame (tries ++ Call.captured cap (.ok before') :: more) = some after := by
      rw [heq, List.append_cons]
      exact lastFrame_append hlast
    rwa [List.append_cons, lastFrame_append_iff hmore] at hwhole
  · rintro ⟨after, hlast, h⟩
    exact ⟨tries, cap, before, more, after, rfl, htries, hlast, h⟩

theorem precapture_spec (cfg : LoopConfig F) (target : ControlNode)
    (capture : Rect → ℕ → Except PrivilegeError Framebuffer) :
    match precapture cfg target capture with
      | (.ok fb, _, calls) =>
          ∃ tries, (∀ c ∈ tries, c.Fails) ∧ calls = tries ++
            [Call.captured (Inflate target.control.bounds cfg.capture_pad_px) (.ok fb)]
      | (.error _, _, calls) => ∀ c ∈ calls, c.Fails := by
  have hspec := captureLoop_spec
    (capture (Inflate target.control.bounds cfg.capture_pad_px))
    (Inflate target.control.bounds cfg.capture_pad_px) 3 0 (.error ⟨.Failed, "pending"⟩)
    (fun fb h => nomatch h)
  rw [precapture, captureThrice]
  split at hspec
  · obtain ⟨tries, hcalls, htries⟩ := hspec
    exact ⟨tries, htries, hcalls⟩
  · exact hspec

/-- What a mutation comes to: it ends before its attempts, or makes them. -/
inductive Mutated (D : Doubles F) (w : Surroundings) (cfg : LoopConfig F) (action : LoopAction)
    (target : ControlNode) (p : Progress F) : Progress F → Prop
  | read (detail : String) : action.kind = .Read →
      Mutated D w cfg action target p (p.emit .Passed detail)
  | unwired (detail : String) : w.capture = none →
      Mutated D w cfg action target p (p.emit .Failed detail)
  | blind {q : Progress F} {calls : List Call} {capture k e} : SameTarget p q →
      q.calls = p.calls ++ calls → q.step.status = .Failed → w.capture = some capture →
        precapture cfg target capture = (.error e, k, calls) → Mutated D w cfg action target p q
  | attempts {q : Progress F} {capture k before calls} : action.kind ≠ .Read → SameTarget p q →
      q.calls = p.calls ++ calls → w.capture = some capture →
        precapture cfg target capture = (.ok before, k, calls) →
          Mutated D w cfg action target p (attemptLoop D w cfg action
            (capture (Inflate target.control.bounds cfg.capture_pad_px))
            (Inflate target.control.bounds cfg.capture_pad_px) target before cfg.attempts 0 k q)

theorem mutate_cases (target : ControlNode) (p : Progress F) :
    Mutated D w cfg action target p (mutate D w cfg action target p) := by
  rw [mutate]
  by_cases hread : action.kind = .Read
  · rw [if_pos hread]
    exact .read _ hread
  · rw [if_neg hread]
    cases hcapture : w.capture with
    | none => exact .unwired _ hcapture
    | some capture =>
        dsimp only
        cases hgot : precapture cfg target capture with
        | mk got rest =>
            obtain ⟨k, calls⟩ := rest
            cases got with
            | error e => exact .blind ⟨rfl, rfl, rfl⟩ rfl rfl hcapture hgot
            | ok before =>
                refine .attempts hread ?_ ?_ hcapture hgot
                · exact ⟨rfl, rfl, rfl⟩
                · rfl

theorem mutate_same (target : ControlNode) (p : Progress F) :
    SameTarget p (mutate D w cfg action target p) := by
  have hcases := @mutate_cases F D w cfg action target p
  generalize mutate D w cfg action target p = q at hcases
  cases hcases with
  | read detail _ => exact ⟨rfl, rfl, rfl⟩
  | unwired detail _ => exact ⟨rfl, rfl, rfl⟩
  | blind hsame _ _ _ _ => exact hsame
  | attempts _ hsame _ _ _ => exact hsame.trans (attemptLoop_same _ _ _ _ _ _ _ _)

/-- What is said of the calls of a mutation, and the status it ends with. -/
def MutatedWell (D : Doubles F) (cfg : LoopConfig F) (action : LoopAction) (q : Progress F) :
    Prop :=
  Spaced (below D cfg (firstFrame q.calls)) true q.calls ∧
    (q.step.status = .Passed → action.kind ≠ .Read → Verified q.calls)

theorem mutatedWell_fails {q : Progress F} (hcalls : ∀ c ∈ q.calls, c.Fails)
    (hstatus : q.step.status = .Passed → action.kind = .Read) : MutatedWell D cfg action q :=
  ⟨List.append_nil q.calls ▸ (spaced_fails hcalls).mpr trivial,
    fun h hread => absurd (hstatus h) hread⟩

/-- The mutation is as it is said to be just where what the system gives lets it be. -/
theorem mutate_spec (target : ControlNode) {p : Progress F} (hp : p.calls = []) :
    (mutate D w cfg action target p).calls.countP Call.isExecute ≤ cfg.attempts ∧
      (MutatedWell D cfg action (mutate D w cfg action target p) ↔
        (action.kind ≠ .Read → ∀ capture before k calls, w.capture = some capture →
          precapture cfg target capture = (.ok before, k, calls) →
          Clears D w cfg action (capture (Inflate target.control.bounds cfg.capture_pad_px))
            (Inflate target.control.bounds cfg.capture_pad_px) target before cfg.attempts 0
              k)) := by
  have hcases := @mutate_cases F D w cfg action target p
  generalize mutate D w cfg action target p = q at hcases
  have hnone : ∀ c ∈ p.calls, c.Fails := fun c hc => nomatch hp ▸ hc
  cases hcases with
  | read detail hread =>
      refine ⟨(countP_fails hnone).le.trans (Nat.zero_le _), ?_⟩
      exact iff_of_true (mutatedWell_fails hnone fun _ => hread) fun h => absurd hread h
  | unwired detail hcapture =>
      refine ⟨(countP_fails hnone).le.trans (Nat.zero_le _), ?_⟩
      refine iff_of_true (mutatedWell_fails hnone fun h => nomatch h) ?_
      exact fun _ capture before k calls h => nomatch hcapture.symm.trans h
  | @blind _ calls capture k e hsame hcalls hstatus hcapture hgot =>
      have hspec := precapture_spec cfg target capture
      rw [hgot] at hspec
      have hfails : ∀ c ∈ q.calls, c.Fails := by
        rw [hcalls, hp]
        exact hspec
      refine ⟨(countP_fails hfails).le.trans (Nat.zero_le _), ?_⟩
      refine iff_of_true (mutatedWell_fails hfails fun h => nomatch hstatus.symm.trans h) ?_
      rintro _ capture' before k' calls' heq hok
      obtain rfl := Option.some.inj (hcapture.symm.trans heq)
      exact nomatch hgot.symm.trans hok
  | @attempts q capture k before calls hread hsame hcalls hcapture hgot =>
      have hspec := precapture_spec cfg target capture
      rw [hgot] at hspec
      obtain ⟨tries, htries, rfl⟩ := hspec
      obtain ⟨more, hmore⟩ := @attemptLoop_spec F D w cfg action
        (capture (Inflate target.control.bounds cfg.capture_pad_px))
        (Inflate target.control.bounds cfg.capture_pad_px) target before cfg.attempts 0 k q
      have hall := hmore.calls
      rw [hcalls, hp, List.nil_append, List.append_assoc, List.singleton_append] at hall
      have hwell : MutatedWell D cfg action (attemptLoop D w cfg action
            (capture (Inflate target.control.bounds cfg.capture_pad_px))
            (Inflate target.control.bounds cfg.capture_pad_px) target before cfg.attempts 0 k q) ↔
          Good D cfg before more (attemptLoop D w cfg action
            (capture (Inflate target.control.bounds cfg.capture_pad_px))
            (Inflate target.control.bounds cfg.capture_pad_px) target before cfg.attempts 0 k
            q).step.status := by
        rw [MutatedWell, Good, hall, firstFrame_eq htries]
        refine and_congr (spaced_fails htries) (forall_congr' fun h => ?_)
        rw [verified_iff htries (hmore.ends h)]
        exact ⟨fun h => h hread, fun h _ => h⟩
      constructor
      · rw [hall, List.append_cons, List.countP_append, countP_frame htries, Nat.zero_add]
        exact hmore.count
      · rw [hwell, hmore.good]
        constructor
        · rintro hclears _ capture' before' k' calls' heq hok
          obtain rfl := Option.some.inj (hcapture.symm.trans heq)
          obtain ⟨hbefore, hrest⟩ := Prod.mk.inj (hgot.symm.trans hok)
          obtain rfl := Except.ok.inj hbefore
          obtain ⟨rfl, -⟩ := Prod.mk.inj hrest
          exact hclears
        · exact fun h => h hread capture before k _ hcapture hgot

/-- Every step is as it is said to be just where what the system gives lets it be. -/
theorem run_iff (D : Doubles F) (w : Surroundings) (cfg : LoopConfig F) (action : LoopAction)
    (last : PerceptionSnapshot) :
    Sound D w cfg action last (Run D w cfg action last) ↔ Lets D w cfg action last := by
  rw [Run, Lets]
  dsimp only
  by_cases hgate : action.high_risk = true ∧ cfg.operator_confirmed = false
  · rw [if_pos hgate]
    refine iff_of_true ?_ fun h => by cases (h hgate.1).symm.trans hgate.2
    exact ⟨(by rintro ⟨c, hc, _⟩; cases hc), Nat.zero_le _, trivial, (fun h => by cases h),
      (fun _ h => by cases h)⟩
  · rw [if_neg hgate]
    have hconfirmed : action.high_risk = true → cfg.operator_confirmed = true := by
      intro hrisk
      rw [← Bool.not_eq_false]
      exact fun hnot => hgate ⟨hrisk, hnot⟩
    have hgated : action.high_risk = false ∨ cfg.operator_confirmed = true := by
      rw [← Bool.not_eq_true]
      exact imp_iff_not_or.mp hconfirmed
    have hsought := @seek_sought F w cfg action last
      (start D action)
    generalize seek w cfg action (w.snapshot cfg.target_pid) last (start D action) = got
      at hsought ⊢
    obtain ⟨p, found⟩ := got
    have hp : p.calls = [] := hsought.calls
    cases found with
    | none =>
        have hstatus : p.step.status = .Failed := hsought.failed rfl
        refine iff_of_true ?_ fun _ _ target mode capture before k calls h => by cases h
        refine ⟨fun _ => hgated, ?_, ?_, (fun h => by cases hstatus.symm.trans h),
          (fun _ h => by cases h)⟩
        · exact hp ▸ Nat.zero_le _
        · show Spaced _ true p.calls
          rw [hp]
          trivial
    | some hit =>
        obtain ⟨target, mode⟩ := hit
        dsimp only
        have hshown : (showTarget target mode p).calls = [] := hp
        obtain ⟨hcount, hiff⟩ := @mutate_spec F D w cfg action target _ hshown
        have hsame := @mutate_same F D w cfg action target
          (showTarget target mode p)
        constructor
        · rintro hsound - hread target' mode' capture before k calls heq hcapture hok
          obtain ⟨rfl, rfl⟩ := Prod.mk.inj (Option.some.inj heq)
          exact hiff.mp ⟨hsound.again, hsound.passed⟩ hread capture before k calls hcapture hok
        · intro hlets
          have hwell := hiff.mpr fun hread capture before k calls hcapture hok =>
            hlets hconfirmed hread target mode capture before k calls rfl hcapture hok
          refine ⟨fun _ => hgated, hcount, hwell.1, hwell.2, fun n hn => ?_⟩
          obtain rfl := Option.some.inj hn
          refine ⟨?_, hsame.name, hsame.bounds⟩
          rw [show (mutate D w cfg action target (showTarget target mode p)).step.mode = mode from
            hsame.mode]
          exact hsought.aimed target mode rfl

end

/-! ## An action that is made twice -/

/-- Exact ratios in place of `double`s. -/
def exact : Doubles ℚ where
  ofInt n := n
  add := (· + ·)
  div := (· / ·)
  le a b := decide (a ≤ b)
  percent _ := ""
  zero_add_zero := add_zero _
  zero_div n _ := by rw [Int.cast_zero, zero_div]

def zoom : ControlNode := .mk { automation_id := [90], bounds := ⟨10, 10, 80, 24⟩ } []

def toggle : LoopAction where
  id := "zoom"
  kind := .Toggle
  selector := { automation_id := [90] }

/-- The control is there, and every execution is accepted. -/
def screen (capture : ℕ → Except PrivilegeError Framebuffer) : Surroundings where
  snapshot _ := { controls := [zoom] }
  inspect _ _ := .error ⟨.AccessDenied, ""⟩
  capture := some fun _ => capture
  execute := some fun _ _ _ => ⟨.Ok, ""⟩
  backend := "uia+sendinput"

/-- A frame before, and no more. -/
def oneFrame : ℕ → Except PrivilegeError Framebuffer
  | 0 => .ok { width := 1, height := 1, bgra := [40, 40, 40, 255] }
  | _ => .error ⟨.Failed, ""⟩

def thresholds : LoopConfig ℚ where
  diff_threshold := 12 / 1000

/-- Nothing could be captured after the control was toggled, and it is toggled again. -/
theorem toggled_twice : ¬ ∀ (F : Type) (D : Doubles F) (w : Surroundings) (cfg : LoopConfig F)
    (action : LoopAction) (last : PerceptionSnapshot),
    Sound D w cfg action last (Run D w cfg action last) := by
  intro h
  have hagain := (h ℚ exact (screen oneFrame) thresholds toggle {}).again
  exact nomatch hagain.2.1

end Secdogie.Atlas.Hybrid
