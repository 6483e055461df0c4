/-
# `Secdogie.Atlas.MctCommand` — the commands of the terminal and the kept snapshot

The terminal keeps the last snapshot it took, and answers with it when the
process it is asked about can no longer be inspected.  With the snapshot it
writes down the process (`last_pid`), and then reads that nowhere: the fallback
takes whatever is kept.

`truthful_run` says when no reply passes a snapshot off as another process's:
whenever a command of the run falls back, what is kept is of the process asked
for, and for `find` was searched for the name asked for.  `passed_off` is a run
of two commands where it is not.
-/
import Secdogie.Atlas.ProcessChain

namespace Secdogie.Atlas

/-! ## Command lines -/

inductive MctOp where
  | Help | List | Inspect | Find | Touch | Graphics | Status | Grant | Mapped | Clear | Chain
  | Link | Unlink | Job | Unknown
  deriving DecidableEq

local instance lawful_head : LawfulBEq Bytes := inferInstance

/-- `head` is one of the words, the first ones without regard to case. -/
def isHead (head : Bytes) (latin : List String) (words : List String) : Bool :=
  decide (lower head ∈ latin.map ascii ∨ head ∈ words.map utf8)

def trimLine (line : Bytes) : Bytes :=
  ((line.reverse.dropWhile (fun c => c = 13 ∨ c = 32 ∨ c = 9)).reverse).dropWhile blank

def headOf (t : Bytes) : Bytes := t.takeWhile (fun c => c ≠ 32)
def restOf (t : Bytes) : Bytes := (t.dropWhile (fun c => c ≠ 32)).dropWhile (fun c => c = 32)

def orElse (rest : Bytes) (other : Bytes) : Bytes := if rest = [] then other else rest

/-- `ParseMctLine` -/
def parseMctLine (line : Bytes) : MctOp × Bytes :=
  let t := trimLine line
  let head := headOf t
  let rest := restOf t
  if t = [] then (.Help, [])
  else if isHead head ["help", "?", "h"] ["帮助"] then (.Help, rest)
  else if isHead head ["list", "ls", "ps"] ["列表", "进程"] then (.List, rest)
  else if isHead head ["clear", "clr"] ["清除"] then (.Clear, rest)
  else if isHead head ["graphics", "gfx", "dib", "viewport"] ["图形"] then (.Graphics, rest)
  else if isHead head ["status", "health"] [] then (.Status, rest)
  else if isHead head ["grant", "grants", "tcc"] ["权限", "授权"] then (.Grant, rest)
  else if isHead head ["mapped"] ["映射"] then (.Mapped, rest)
  else if isHead head ["inspect", "open", "pid"] ["检查", "打开"] then
    (.Inspect, orElse rest (ascii "atlas_target"))
  else if isHead head ["find", "lock"] ["查找", "找"] then (.Find, rest)
  else if isHead head ["touch", "hit", "tap"] ["点", "触", "触摸", "点击"] then (.Touch, rest)
  else if isHead head ["chain", "related"] ["串联", "关联", "链路"] then (.Chain, rest)
  else if isHead head ["link"] ["链接", "钉住"] then (.Link, rest)
  else if isHead head ["unlink"] ["取消链接"] then (.Unlink, rest)
  else if isHead head ["job", "jobs", "report"] ["作业", "报表"] then
    (.Job, if isHead head ["report"] ["报表"] then orElse rest (ascii "report") else rest)
  else if isHead head ["zoom", "extents"] ["缩放"] then (.Find, ascii "Zoom Extents")
  else if isHead head ["layer", "dims", "layer_dims"] ["图层"] then
    (.Find, if contains rest (utf8 "尺") || contains rest (ascii "cjk") then utf8 "图层尺寸"
      else ascii "LAYER_DIMS")
  else if t.all isDigit then (.Inspect, t)
  else if (contains t (ascii "atlas_target") || contains t (ascii "acad.exe")) && !t.contains 32 then
    (.Inspect, t)
  else (.Find, t)

/-! ## Which process is meant -/

/-- `ScoreProcess` -/
def scoreProcess (p : ListedProcess) (q : Bytes) : ℤ :=
  if q = [] then 0
  else if pidText p.pid = q then if p.readable then 10000 else 1
  else
    let image := lower p.image
    let base := lower (basename p.image)
    let cmd := lower p.cmdline
    let ql := lower q
    let aboutOther := contains ql (ascii "atlas") && !contains ql (ascii "target")
    (if base = ql ∨ image = ql then 160 else if contains base ql || contains image ql then 50 else 0)
      + (if contains cmd ql then 15 else 0)
      + (if contains base (ascii "atlas_target") then 40 else 0)
      - (if contains cmd (ascii "--report") && !contains ql (ascii "report") &&
            !contains ql (utf8 "报表") then 50 else 0)
      + (if p.readable then 30 else -200)
      - (if contains base (ascii "atlas_inspect") && aboutOther then 80 else 0)
      - (if contains base (ascii "atlas_mct") && aboutOther then 80 else 0)
      - (if p.rss_kb = 0 then 40 else 0)

/-- A target that is not the report's. -/
def isTarget (p : ListedProcess) : Bool :=
  p.readable && contains (lower (basename p.image)) (ascii "atlas_target") &&
    !contains (lower p.cmdline) (ascii "--report")

/-- The best of the scores so far. -/
def better (q : Bytes) (best : Option ListedProcess × ℤ) (p : ListedProcess) :
    Option ListedProcess × ℤ :=
  if p.readable ∧ best.2 < scoreProcess p q then (some p, scoreProcess p q) else best

/-- `Resolve` -/
def resolve (procs : List ListedProcess) (query : Bytes) : Option ListedProcess :=
  if query = [] then
    (procs.find? (fun p => isTarget p && decide (0 < p.rss_kb))).or
      ((procs.reverse.find? isTarget).or (procs.find? (fun p => p.readable)))
  else if query.all isDigit then
    findPid procs (UInt32.ofNat (min ULONG_MAX (decimal query)))
  else
    let best := procs.foldl (better query) (none, 0)
    if 25 ≤ best.2 then best.1 else none

/-- An integer as `%d` reads it, and what is left. -/
def scanInt (s : Bytes) : Option (ℤ × Bytes) :=
  let s := s.dropWhile isSpace
  let negative := s.head? = some 45
  let s := if s.head? = some 43 ∨ negative then s.tail else s
  match s.takeWhile isDigit with
  | [] => none
  | digits =>
      some (if negative then -(decimal digits : ℤ) else decimal digits, s.dropWhile isDigit)

/-- `ParseXy`, of numbers that an `int` holds -/
def parseXy (arg : Bytes) : Option (ℤ × ℤ) :=
  let t := cStr (arg.map (fun c => if c = 44 ∨ c = 59 ∨ c = 58 then 32 else c))
  match scanInt t with
  | none => none
  | some (x, t) => (scanInt t).map (fun (y, _) => (x, y))

/-! ## The terminal -/

structure MctState where
  pid : Pid := 0
  include_mapped : Bool := false
  max_mb : ℕ := 8
  find : Wide := []
  linked : List Pid := []
  last_snap : Option Snapshot := none
  last_pid : Pid := 0
  last_chain : List ChainMember := []

/-- A control under a point: its names, its role and the rest. -/
structure ControlNode where
  name : Wide
  automation_id : Wide
  label : Bytes
  json : Bytes

/-- What a command sees of the system: the lists of processes, in the order it asks
for them; what each attempt at an inspection gives; the control under a point, with
the number of controls; and the grants of the pad. -/
structure World where
  lists : ℕ → List ListedProcess
  dump : Pid → InspectConfig → Wide → ℕ → Dump
  touched : Pid → ℤ → ℤ → Option ControlNode × ℕ
  platform : Bytes
  pad : Bytes
  pad_detail : Bytes

structure Answer where
  ok : Bool
  op : Bytes
  result : Bytes
  pid : Option Pid := none
  attempts : Option ℕ := none
  stale : Option Bool := none
  isolated : Bool := false
  snapshot : Option Snapshot := none
  chain : Option (List ChainMember) := none
  job : Option JobResult := none
  tab : Option Bytes := none
  list : Option (List ListedProcess) := none
  touched : Option (ℤ × ℤ × Option ControlNode × ℕ) := none
  platform : Option Bytes := none
  kind : Option Bytes := none

/-- `Wrap(false, op, result, "")` -/
def refuse (op : String) (result : Bytes) : Answer := { ok := false, op := ascii op, result }

def MctState.config (st : MctState) : InspectConfig where
  max_bytes := st.max_mb * 1024 * 1024
  include_mapped := st.include_mapped
  max_strings := 400

/-- The process that is current, or the target if there is none. -/
def MctState.current (st : MctState) (w : World) : Pid :=
  if st.pid = 0 then ((resolve (w.lists 0) []).map (·.pid)).getD 0 else st.pid

/-- `InspectWithRetry`, as the commands call it. -/
def MctState.inspect (n : ℕ) (w : World) (st : MctState) (pid : Pid) (find : Wide) (retries : ℕ) :
    InspectAttempt :=
  inspectWithRetry n (w.dump pid st.config find) pid find st.last_snap retries

/-- What is kept of an inspection. -/
def MctState.keep (st : MctState) (pid : Pid) (a : InspectAttempt) : MctState :=
  if a.ok then { st with last_snap := a.json, last_pid := pid } else st

/-- `RememberChain` -/
def MctState.rememberChain (st : MctState) (pid : Pid) (all : List ListedProcess) : MctState :=
  { st with last_chain := mergeLastKnown (buildChain pid all st.linked) st.last_chain }

/-- A snapshot in which the name was found. -/
def isHit (snapshot : Option Snapshot) : Bool :=
  match snapshot with
  | some snap => snap.found.isSome
  | none => false

section

variable (n : ℕ) (w : World) (st : MctState)

/-- `ExecMctLine: inspect` -/
def execInspect (arg : Bytes) : Answer × MctState :=
  match resolve (w.lists 0) arg with
  | none => (refuse "inspect" (ascii "no matching process: " ++ arg), st)
  | some p =>
      if ¬ p.readable then
        let a := st.inspect n w p.pid st.find 1
        if a.stale then
          ({ ok := true, op := ascii "inspect",
             result := ascii "pid " ++ pidText p.pid ++ utf8 " unreadable — last-known (isolated)",
             pid := some p.pid, stale := some true, isolated := true, snapshot := a.json }, st)
        else
          (refuse "inspect" (ascii "pid " ++ pidText p.pid ++ ascii " unreadable (maps/dumpable)"),
            st)
      else
        let st := { st with pid := p.pid }
        let a := st.inspect n w p.pid st.find 3
        ({ ok := a.ok || a.stale, op := ascii "inspect",
           result := if a.ok then ascii "pid " ++ pidText p.pid ++ ascii " " ++ basename p.image
             else if a.stale then utf8 "inspect jitter — last-known" else a.detail,
           pid := some p.pid, attempts := some a.attempts, stale := some a.stale,
           snapshot := a.json }, st.keep p.pid a)

/-- `ExecMctLine: find` -/
def execFind (arg : Bytes) : Answer × MctState :=
  if arg = [] then (refuse "find" (ascii "usage: find <name>"), st)
  else
    let st := { st with find := utf8ToWide arg, pid := st.current w }
    if st.pid = 0 then (refuse "find" (ascii "no readable target"), st)
    else
      let a := st.inspect n w st.pid st.find 3
      let hit := isHit a.json
      ({ ok := (a.ok || a.stale) && hit, op := ascii "find",
         result := if a.stale then ascii "stale HIT/MISS " ++ arg
           else if hit then ascii "HIT " ++ arg else ascii "MISS " ++ arg,
         pid := some st.pid, stale := some a.stale, snapshot := a.json }, st.keep st.pid a)

/-- `ExecMctLine: graphics` -/
def execGraphics : Answer × MctState :=
  let st := { st with pid := st.current w }
  if st.pid = 0 then (refuse "graphics" (ascii "no readable target"), st)
  else
    let a := st.inspect n w st.pid [] 3
    ({ ok := a.ok || a.stale, op := ascii "graphics",
       result := if a.stale then ascii "viewport from last-known (isolated)"
         else ascii "viewport from AX/UIA hit-map (trackpad) / process memory",
       pid := some st.pid, stale := some a.stale, snapshot := a.json,
       tab := some (ascii "graphics") }, st.keep st.pid a)

def touchLabel (x y : ℤ) : Option ControlNode → Bytes
  | some hit => ascii "HIT " ++ hit.label ++ ascii (" @ " ++ toString x ++ "," ++ toString y)
  | none => ascii ("MISS " ++ toString x ++ "," ++ toString y) ++
      utf8 " — no AX/UIA/window node under the point. On macOS run: grant"

/-- What the control under the point makes the name to look for. -/
def touchFind (find : Wide) : Option ControlNode → Wide
  | some hit =>
      if hit.name ≠ [] then hit.name
      else if hit.automation_id ≠ [] then hit.automation_id else find
  | none => find

/-- `ExecMctLine: touch` -/
def execTouch (arg : Bytes) : Answer × MctState :=
  match parseXy arg with
  | none => (refuse "touch" (utf8 "usage: touch <x> <y> · 点 <x> <y>"), st)
  | some (x, y) =>
      let st := { st with pid := st.current w }
      if st.pid = 0 then (refuse "touch" (ascii "no readable target"), st)
      else
        let (hit, nodes) := w.touched st.pid x y
        ({ ok := hit.isSome, op := ascii "touch", result := touchLabel x y hit,
           pid := some st.pid, tab := some (ascii "graphics"),
           touched := some (x, y, hit, nodes) },
          { st with find := touchFind st.find hit })

/-- The process that `chain` turns to. -/
def MctState.chained (w : World) (st : MctState) (arg : Bytes) : MctState :=
  if st.pid = 0 ∨ arg ≠ [] then
    match resolve (w.lists 0) arg with
    | some p => { st with pid := p.pid }
    | none => st
  else st

/-- `ExecMctLine: chain` -/
def execChain (arg : Bytes) : Answer × MctState :=
  let st := st.chained w arg
  if st.pid = 0 then (refuse "chain" (ascii "no process to chain"), st)
  else
    let st := st.rememberChain st.pid (w.lists 1)
    ({ ok := true, op := ascii "chain",
       result := ascii "pid " ++ pidText st.pid ++ utf8 " · " ++ digitsOf st.last_chain.length ++
         ascii " members",
       pid := some st.pid, chain := some st.last_chain }, st)

/-- `ExecMctLine: link` -/
def execLink (arg : Bytes) : Answer × MctState :=
  if arg = [] then (refuse "link" (ascii "usage: link <pid|name>"), st)
  else
    match resolve (w.lists 0) arg with
    | none => (refuse "link" (ascii "no matching process: " ++ arg), st)
    | some p =>
        let st := { st with
          linked := if p.pid ∈ st.linked then st.linked else st.linked ++ [p.pid]
          pid := if st.pid = 0 then p.pid else st.pid }
        let st := st.rememberChain st.pid (w.lists 0)
        ({ ok := true, op := ascii "link", result := ascii "linked pid " ++ pidText p.pid,
           pid := some p.pid, chain := some st.last_chain }, st)

/-- What a job is called, `status` being another name of the report. -/
def isReport (arg : Bytes) : Bool :=
  let kind := lower arg
  decide (kind = [] ∨ kind = ascii "status" ∨ kind = utf8 "报表" ∨ ascii "report" <+: kind)

/-- What the stages of the report job see: the processes are listed anew. -/
def MctState.jobInput : JobInput where
  command := n
  all := w.lists 1
  dump := fun pid find => w.dump pid st.config find
  last_known := st.last_snap

/-- `ExecMctLine: job` -/
def execJob (arg : Bytes) : Answer × MctState :=
  let st := { st with pid := st.current w }
  if ¬ isReport arg then (refuse "job" (ascii "unknown job (try: job report)"), st)
  else
    let job := runReportJob (st.jobInput n w) st.pid st.linked st.last_chain
    let st :=
      if job.last_snap.isSome then
        { st with
          last_snap := job.last_snap
          last_pid := job.source_pid
          pid := if st.pid = 0 then job.source_pid else st.pid }
      else st
    let st := st.rememberChain job.source_pid (w.lists 2)
    ({ ok := decide (job.status ≠ ascii "failed"), op := ascii "job",
       result := ascii "job " ++ job.name ++ ascii " " ++ job.status ++ utf8 " · " ++
         digitsOf job.stages.length ++ ascii " stages",
       pid := some job.source_pid, snapshot := job.last_snap, chain := some st.last_chain,
       job := some job, tab := some (ascii "job") }, st)

/-- `ExecMctLine` -/
def execMctLine (line : Bytes) : Answer × MctState :=
  let (op, arg) := parseMctLine line
  match op with
  | .Help =>
      ({ ok := true, op := ascii "help",
         result := utf8 ("list · inspect <pid|name> · find <control> · touch <x> <y> · 点 <x> <y> · "
           ++ "grant · 授权 · chain · link <pid> · job report · 报表 · graphics · mapped "
           ++ "on|off · status · clear"), kind := some (ascii "app") }, st)
  | .Status =>
      ({ ok := true, op := ascii "status",
         result := utf8 "atlas_mct 应用程式 loopback, read-only · pad " ++ w.pad,
         platform := some w.platform, kind := some (ascii "app"), pid := some st.pid }, st)
  | .Grant =>
      ({ ok := true, op := ascii "grant", result := w.pad_detail, platform := some w.platform }, st)
  | .Clear =>
      ({ ok := true, op := ascii "clear", result := ascii "cleared" },
        { st with pid := 0, find := [], linked := [], last_snap := none, last_pid := 0,
                  last_chain := [] })
  | .Mapped =>
      let include_mapped := decide (arg ≠ ascii "off" ∧ arg ≠ ascii "0" ∧ arg ≠ utf8 "关")
      ({ ok := true, op := ascii "mapped",
         result := if include_mapped then ascii "mapped pages on" else ascii "private pages only" },
        { st with include_mapped := include_mapped })
  | .List =>
      ({ ok := true, op := ascii "list", result := ascii "process list",
         list := some (w.lists 0) }, st)
  | .Inspect => execInspect n w st arg
  | .Find => execFind n w st arg
  | .Touch => execTouch w st arg
  | .Graphics => execGraphics n w st
  | .Chain => execChain w st arg
  | .Link => execLink w st arg
  | .Unlink =>
      let pid := UInt32.ofNat ((scanUnsigned (cStr arg)).getD 0)
      ({ ok := true, op := ascii "unlink", result := ascii "unlinked " ++ arg },
        { st with linked := st.linked.filter (fun p => p ≠ pid) })
  | .Job => execJob n w st arg
  | .Unknown => (refuse "unknown" (ascii "unknown command. help"), st)

/-! ## What a reply says of a snapshot -/

/-- The reply says that its snapshot is an old one. -/
def Answer.marked (a : Answer) : Bool :=
  a.stale = some true || (match a.job with | some job => sourceStale job | none => false)

/-- A reply to the command `n` does not pass its snapshot off: it was taken of the
process the reply names, and it is marked if an earlier command took it. -/
structure Honest (a : Answer) : Prop where
  own : ∀ snap, a.snapshot = some snap → a.pid = some snap.pid
  marked : ∀ snap, a.snapshot = some snap → (a.marked = true ↔ snap.command < n)

/-- The snapshot was searched for the name, and it was found. -/
def Found (arg : Bytes) (a : Answer) : Prop :=
  ∃ snap, a.snapshot = some snap ∧ snap.searched = utf8ToWide arg ∧ snap.found.isSome = true

/-- What is said of every reply. -/
structure Truthful (line : Bytes) : Prop where
  honest : Honest n (execMctLine n w st line).1
  hit : ∀ arg, parseMctLine line = (.Find, arg) → (execMctLine n w st line).1.ok = true →
    Found arg (execMctLine n w st line).1

/-! ## When a command may fall back -/

/-- What is kept, if anything, was taken of the process. -/
def KeptOf (pid : Pid) : Prop := ∀ snap, st.last_snap = some snap → snap.pid = pid

def KeepsInspect (arg : Bytes) : Prop :=
  ∀ p, resolve (w.lists 0) arg = some p →
    Fails (w.dump p.pid st.config st.find) p.pid (if p.readable then 3 else 1) → KeptOf st p.pid

def KeepsFind (arg : Bytes) : Prop :=
  arg ≠ [] → st.current w ≠ 0 → Fails (w.dump (st.current w) st.config (utf8ToWide arg)) (st.current w) 3 →
    KeptOf st (st.current w) ∧
      ∀ snap, st.last_snap = some snap → snap.searched = utf8ToWide arg

def KeepsGraphics : Prop :=
  st.current w ≠ 0 → Fails (w.dump (st.current w) st.config []) (st.current w) 3 →
    KeptOf st (st.current w)

def KeepsJob (arg : Bytes) : Prop :=
  isReport arg = true → ∀ pid chain, jobChain (st.current w) st.linked (w.lists 1) st.last_chain = some (pid, chain) →
    (∃ root ∈ chain.head?, Taken (st.jobInput n w) root) ∨
      ∀ m ∈ chain, FallsBack (st.jobInput n w) m → m.pid = pid ∧ KeptOf st pid

/-- Where the command falls back on the kept snapshot, it was taken of the process that
the command answers for, and for `find` it was searched for the name asked for. -/
def Keeps (line : Bytes) : Prop :=
  match parseMctLine line with
  | (.Inspect, arg) => KeepsInspect w st arg
  | (.Find, arg) => KeepsFind w st arg
  | (.Graphics, _) => KeepsGraphics w st
  | (.Job, arg) => KeepsJob n w st arg
  | _ => True

/-- The snapshot that is kept was taken by an earlier command. -/
def Earlier : Prop := ∀ snap, st.last_snap = some snap → snap.command < n

end

/-- A command after another, each with what it sees of the system: `P` holds of each. -/
def Run (P : ℕ → World → MctState → Bytes → Prop) : ℕ → MctState → List (World × Bytes) → Prop
  | _, _, [] => True
  | n, st, (w, line) :: cmds => P n w st line ∧ Run P (n + 1) (execMctLine n w st line).2 cmds

section

variable {n : ℕ} {w : World} {st : MctState}

/-- An answer without a snapshot. -/
theorem honest_none {a : Answer} (h : a.snapshot = none) : Honest n a where
  own := fun _ hs => nomatch h.symm.trans hs
  marked := fun _ hs => nomatch h.symm.trans hs

theorem Earlier.succ {st' : MctState} (h : Earlier n st) (heq : st'.last_snap = st.last_snap) :
    Earlier (n + 1) st' := fun snap hs => Nat.lt_succ_of_lt (h snap (heq ▸ hs))

theorem honest_inspect {pid : Pid} {find : Wide} {retries : ℕ} {a : Answer} (h : Earlier n st)
    (hkeeps : Fails (w.dump pid st.config find) pid retries → KeptOf st pid)
    (hsnap : a.snapshot = (st.inspect n w pid find retries).json) (hpid : a.pid = some pid)
    (hstale : a.stale = some (st.inspect n w pid find retries).stale) (hjob : a.job = none) :
    Honest n a := by
  rcases inspectWithRetry_cases n (w.dump pid st.config find) pid find st.last_snap retries with
    ⟨-, d, -, hfresh, hjson⟩ | ⟨hfails, -, hold, hjson⟩
  · have heq : a.snapshot = some ⟨pid, find, d.1, d.2, n⟩ := hsnap.trans hjson
    have hmark : a.stale = some false := hstale.trans (congrArg some hfresh)
    refine ⟨fun snap hs => ?_, fun snap hs => ?_⟩ <;> obtain rfl := Option.some.inj (heq.symm.trans hs)
    · exact hpid
    · simp [Answer.marked, hmark, hjob]
  · have heq : a.snapshot = st.last_snap := hsnap.trans hjson
    refine ⟨fun snap hs => ?_, fun snap hs => ?_⟩
    · rw [hpid, hkeeps hfails snap (heq.symm.trans hs)]
    · have hlast := heq.symm.trans hs
      have hmark : a.stale = some true := by
        rw [hstale, MctState.inspect, hold, hlast]
        rfl
      simp [Answer.marked, hmark, h snap hlast]

theorem earlier_keep {pid : Pid} {find : Wide} {retries : ℕ} (h : Earlier n st) :
    Earlier (n + 1) (st.keep pid (st.inspect n w pid find retries)) := by
  rw [MctState.keep]
  split
  · next hok =>
      rcases inspectWithRetry_cases n (w.dump pid st.config find) pid find st.last_snap retries with
        ⟨-, d, -, -, hjson⟩ | ⟨-, hnot, -⟩
      · intro snap hs
        obtain rfl := Option.some.inj (hjson.symm.trans hs)
        exact Nat.lt_succ_self n
      · exact absurd (hok.symm.trans hnot) (by decide)
  · exact h.succ rfl

theorem execInspect_honest {arg : Bytes} (h : Earlier n st) (hkeeps : KeepsInspect w st arg) :
    Honest n (execInspect n w st arg).1 ∧ Earlier (n + 1) (execInspect n w st arg).2 := by
  rw [execInspect]
  split
  · exact ⟨honest_none rfl, h.succ rfl⟩
  · next p hp =>
      have hfall := hkeeps p hp
      split
      · next hread =>
          rw [if_neg hread] at hfall
          dsimp only
          split
          · next hstale =>
              exact ⟨honest_inspect h hfall rfl rfl (congrArg some hstale.symm) rfl, h.succ rfl⟩
          · exact ⟨honest_none rfl, h.succ rfl⟩
      · next hread =>
          rw [if_pos (not_not.mp hread)] at hfall
          have h' : Earlier n { st with pid := p.pid } := h
          exact ⟨honest_inspect h' hfall rfl rfl rfl rfl, earlier_keep h'⟩

theorem execGraphics_honest (h : Earlier n st) (hkeeps : KeepsGraphics w st) :
    Honest n (execGraphics n w st).1 ∧ Earlier (n + 1) (execGraphics n w st).2 := by
  rw [execGraphics]
  dsimp only
  split
  · exact ⟨honest_none rfl, h.succ rfl⟩
  · next hpid =>
      have h' : Earlier n { st with pid := st.current w } := h
      exact ⟨honest_inspect h' (hkeeps hpid) rfl rfl rfl rfl, earlier_keep h'⟩

theorem execFind_honest {arg : Bytes} (h : Earlier n st) (hkeeps : KeepsFind w st arg) :
    Honest n (execFind n w st arg).1 ∧ Earlier (n + 1) (execFind n w st arg).2 := by
  rw [execFind]
  split
  · exact ⟨honest_none rfl, h.succ rfl⟩
  · next harg =>
      dsimp only
      split
      · exact ⟨honest_none rfl, h.succ rfl⟩
      · next hpid =>
          have h' : Earlier n { st with find := utf8ToWide arg, pid := st.current w } := h
          exact ⟨honest_inspect h' (fun hf => (hkeeps harg hpid hf).1) rfl rfl rfl rfl,
            earlier_keep h'⟩

/-- A hit is of a snapshot that was searched for the name. -/
theorem execFind_hit {arg : Bytes} (hkeeps : KeepsFind w st arg)
    (hok : (execFind n w st arg).1.ok = true) : Found arg (execFind n w st arg).1 := by
  rw [execFind] at hok ⊢
  split at hok
  · exact nomatch hok
  · next harg =>
      rw [if_neg harg]
      dsimp only at hok ⊢
      split at hok
      · exact nomatch hok
      · next hpid =>
          rw [if_neg hpid]
          have hhit : isHit (inspectWithRetry n (w.dump (st.current w) st.config (utf8ToWide arg))
              (st.current w) (utf8ToWide arg) st.last_snap 3).json = true :=
            (Bool.and_eq_true _ _ ▸ hok).2
          rcases inspectWithRetry_cases n (w.dump (st.current w) st.config (utf8ToWide arg))
              (st.current w) (utf8ToWide arg) st.last_snap 3 with
            ⟨-, d, -, -, hjson⟩ | ⟨hfails, -, -, hjson⟩
          · refine ⟨⟨st.current w, utf8ToWide arg, d.1, d.2, n⟩, hjson, rfl, ?_⟩
            rwa [hjson] at hhit
          · rw [hjson] at hhit
            obtain ⟨snap, hlast⟩ : ∃ snap, st.last_snap = some snap := by
              by_contra hnone
              rw [Option.eq_none_iff_forall_ne_some.mpr fun snap hs => hnone ⟨snap, hs⟩] at hhit
              exact nomatch hhit
            rw [hlast] at hhit
            exact ⟨snap, hjson.trans hlast, (hkeeps harg hpid hfails).2 snap hlast, hhit⟩

/-- The report of the job that the command runs. -/
def MctState.report (n : ℕ) (w : World) (st : MctState) : JobResult :=
  runReportJob (st.jobInput n w) (st.current w) st.linked st.last_chain

/-- The snapshot of a job is of its source, and its source's stage says whether it is old. -/
theorem report_honest {arg : Bytes} {snap : Snapshot} (h : Earlier n st)
    (hkeeps : KeepsJob n w st arg) (hreport : isReport arg = true)
    (hsnap : (st.report n w).last_snap = some snap) :
    snap.pid = (st.report n w).source_pid ∧ snap.command < n + 1 ∧
      (sourceStale (st.report n w) = true ↔ snap.command < n) := by
  obtain ⟨pid, chain, hchain, hpid, hfrom⟩ := jobSnapshot _ _ _ _ hsnap
  rcases hfrom with ⟨hsource, hcommand, hfresh⟩ | ⟨hlast, hhead, m, hm, hfall, stage, hstage, hmark⟩
  · have hn : snap.command = n := hcommand
    refine ⟨hsource.trans hpid.symm, by omega, ?_⟩
    rw [MctState.report, hfresh, hn]
    simp
  · rcases hkeeps hreport pid chain hchain with ⟨root, hroot, htaken⟩ | hall
    · exact absurd htaken (hhead root hroot)
    · obtain ⟨hm_pid, hkept⟩ := hall m hm hfall
      have hold := h snap hlast
      refine ⟨(hkept snap hlast).trans hpid.symm, by omega, iff_of_true ?_ hold⟩
      rw [sourceStale, List.any_eq_true]
      refine ⟨stage, hstage, ?_⟩
      rw [Bool.and_eq_true, decide_eq_true_eq]
      exact ⟨hmark.1.trans (hm_pid.trans hpid.symm), hmark.2⟩

theorem execJob_honest {arg : Bytes} (h : Earlier n st) (hkeeps : KeepsJob n w st arg) :
    Honest n (execJob n w st arg).1 ∧ Earlier (n + 1) (execJob n w st arg).2 := by
  rw [execJob]
  dsimp only
  split
  · exact ⟨honest_none rfl, h.succ rfl⟩
  · next hreport =>
      have hall := fun snap => @report_honest n w st arg snap h hkeeps (not_not.mp hreport)
      refine ⟨⟨fun snap hs => congrArg some (hall snap hs).1.symm, fun snap hs => ?_⟩, ?_⟩
      · exact (hall snap hs).2.2
      · intro snap hs
        split at hs
        · exact (hall snap hs).2.1
        · exact Nat.lt_succ_of_lt (h snap hs)

theorem MctState.chained_last_snap (st : MctState) (arg : Bytes) :
    (st.chained w arg).last_snap = st.last_snap := by
  rw [chained]
  split
  · split
    · rfl
    · rfl
  · rfl

/-- What one command does. -/
theorem execMctLine_truthful {line : Bytes} (h : Earlier n st) (hkeeps : Keeps n w st line) :
    Truthful n w st line ∧ Earlier (n + 1) (execMctLine n w st line).2 := by
  rcases hline : parseMctLine line with ⟨op, arg⟩
  rw [Keeps, hline] at hkeeps
  suffices hdone : Honest n (execMctLine n w st line).1 ∧
      Earlier (n + 1) (execMctLine n w st line).2 from by
    refine ⟨⟨hdone.1, fun name hfind hok => ?_⟩, hdone.2⟩
    rw [hline] at hfind
    obtain ⟨rfl, rfl⟩ := Prod.mk.inj hfind
    rw [execMctLine, hline] at hok ⊢
    exact execFind_hit hkeeps hok
  rw [execMctLine, hline]
  cases op with
  | Inspect => exact execInspect_honest h hkeeps
  | Find => exact execFind_honest h hkeeps
  | Graphics => exact execGraphics_honest h hkeeps
  | Job => exact execJob_honest h hkeeps
  | Clear => exact ⟨honest_none rfl, fun snap hs => nomatch hs⟩
  | Touch =>
      dsimp only
      rw [execTouch]
      split
      · exact ⟨honest_none rfl, h.succ rfl⟩
      · dsimp only
        split
        · exact ⟨honest_none rfl, h.succ rfl⟩
        · exact ⟨honest_none rfl, h.succ rfl⟩
  | Chain =>
      dsimp only
      rw [execChain]
      dsimp only
      split
      · exact ⟨honest_none rfl, h.succ (st.chained_last_snap arg)⟩
      · exact ⟨honest_none rfl, h.succ (st.chained_last_snap arg)⟩
  | Link =>
      dsimp only
      rw [execLink]
      split
      · exact ⟨honest_none rfl, h.succ rfl⟩
      · split
        · exact ⟨honest_none rfl, h.succ rfl⟩
        · exact ⟨honest_none rfl, h.succ rfl⟩
  | Help => exact ⟨honest_none rfl, h.succ rfl⟩
  | List => exact ⟨honest_none rfl, h.succ rfl⟩
  | Status => exact ⟨honest_none rfl, h.succ rfl⟩
  | Grant => exact ⟨honest_none rfl, h.succ rfl⟩
  | Mapped => exact ⟨honest_none rfl, h.succ rfl⟩
  | Unlink => exact ⟨honest_none rfl, h.succ rfl⟩
  | Unknown => exact ⟨honest_none rfl, h.succ rfl⟩

end

/-- In every run whose commands fall back only on what was taken of the process they
answer for, no reply passes its snapshot off as another's. -/
theorem truthful_run (cmds : List (World × Bytes)) : ∀ (n : ℕ) (st : MctState),
    Earlier n st → Run Keeps n st cmds → Run Truthful n st cmds := by
  induction cmds with
  | nil => exact fun _ _ _ _ => trivial
  | cons cmd cmds ih =>
      intro n st h hrun
      obtain ⟨htrue, hnext⟩ := execMctLine_truthful h hrun.1
      exact ⟨htrue, ih (n + 1) _ hnext hrun.2⟩

/-- From the start of the terminal, whatever the commands are. -/
theorem truthful (cmds : List (World × Bytes)) (h : Run Keeps 0 {} cmds) :
    Run Truthful 0 {} cmds :=
  truthful_run cmds 0 {} (fun _ hs => nomatch hs) h

/-! ## A snapshot that is passed off -/

/-- Two processes, of which every inspection gives the same. -/
def twoProcesses (dump : Dump) : World where
  lists _ := [{ pid := 100, image := ascii "a", rss_kb := 1 },
    { pid := 200, image := ascii "b", rss_kb := 1 }]
  dump _ _ _ _ := dump
  touched _ _ _ := (none, 0)
  platform := []
  pad := []
  pad_detail := []

def answering : World := twoProcesses (.ok (none, []))
def failing : World := twoProcesses (.error [])

/-- The first process is inspected, and then it cannot be any more. -/
def fallenBack : List (World × Bytes) :=
  [(answering, ascii "inspect 100"), (failing, ascii "inspect 100")]

/-- The first process is inspected, and the second cannot be. -/
def another : List (World × Bytes) :=
  [(answering, ascii "inspect 100"), (failing, ascii "inspect 200")]

theorem truthful_fallenBack : Run Truthful 0 {} fallenBack := by
  refine truthful fallenBack ⟨fun p _ _ snap hs => (nomatch hs), fun p hp _ snap hs => ?_, trivial⟩
  obtain rfl : ({ pid := 100, image := ascii "a", rss_kb := 1 } : ListedProcess) = p :=
    Option.some.inj hp
  obtain rfl : (⟨100, [], none, [], 0⟩ : Snapshot) = snap := Option.some.inj hs
  rfl

/-- What was taken of the first process is given as the second's. -/
theorem passed_off : ¬ ∀ cmds, Run Truthful 0 {} cmds := by
  intro h
  have hown := (h another).2.1.honest.own ⟨100, [], none, [], 0⟩ rfl
  have hpid : some (200 : Pid) = some 100 := hown
  exact absurd hpid (by decide)

end Secdogie.Atlas
