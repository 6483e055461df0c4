/-
# `Secdogie.Atlas.ProcessChain` — inspections, related processes and the report job

An inspection is tried a few times, and if no attempt gives a snapshot the last
one that is known is given in its place, marked stale (`inspectWithRetry`).  The
chain of a process are the processes it is related to, those that are gone
included, and the report job inspects its members one by one.

Only a member marked as the chain's source may be answered by the kept snapshot,
but nothing compares the process of that snapshot with the member's.
`jobSnapshot_fresh` and `jobSnapshot_stale` say which stage the snapshot of a
job comes from.
-/
import Secdogie.Atlas.MctServer

namespace Secdogie.Atlas

abbrev Pid := UInt32

/-- Wide characters where `wchar_t` is UTF-32. -/
abbrev Wide := List ℕ

/-- The bytes of a text in UTF-8. -/
def utf8 (s : String) : Bytes := s.toList.flatMap String.utf8EncodeChar

def contains (s w : Bytes) : Bool := (find w s).isSome

/-- `Basename` -/
def basename (path : Bytes) : Bytes :=
  (path.reverse.takeWhile (fun c => c ≠ 47 ∧ c ≠ 92)).reverse

/-- `std::to_string` -/
def pidText (pid : Pid) : Bytes := digitsOf pid.toNat

/-! ## Wide characters -/

def continues (c : UInt8) : Bool := c &&& 0xC0 = 0x80

/-- `Utf8Decode`: the code point that stands first, and how many bytes it takes. -/
def utf8Decode : Bytes → Option (ℕ × ℕ)
  | [] => none
  | c :: s =>
      if c < 0x80 then some (c.toNat, 1)
      else if c &&& 0xE0 = 0xC0 ∧ 1 ≤ s.length then
        match s with
        | c₁ :: _ =>
            let cp := (c &&& 0x1F).toNat * 64 + (c₁ &&& 0x3F).toNat
            if ¬ continues c₁ ∨ cp < 0x80 then none else some (cp, 2)
        | [] => none
      else if c &&& 0xF0 = 0xE0 ∧ 2 ≤ s.length then
        match s with
        | c₁ :: c₂ :: _ =>
            let cp := (c &&& 0x0F).toNat * 4096 + (c₁ &&& 0x3F).toNat * 64 + (c₂ &&& 0x3F).toNat
            if ¬ (continues c₁ ∧ continues c₂) ∨ cp < 0x800 ∨ (0xD800 ≤ cp ∧ cp ≤ 0xDFFF) then none
            else some (cp, 3)
        | _ => none
      else if c &&& 0xF8 = 0xF0 ∧ 3 ≤ s.length then
        match s with
        | c₁ :: c₂ :: c₃ :: _ =>
            let cp := (c &&& 0x07).toNat * 262144 + (c₁ &&& 0x3F).toNat * 4096 +
              (c₂ &&& 0x3F).toNat * 64 + (c₃ &&& 0x3F).toNat
            if ¬ (continues c₁ ∧ continues c₂ ∧ continues c₃) ∨ cp < 0x10000 ∨ cp > 0x10FFFF then none
            else some (cp, 4)
        | _ => none
      else none

/-- `Utf8ToWide`, with the number of bytes as fuel: each round takes one at least. -/
def wideLoop : ℕ → Bytes → Wide
  | 0, _ => []
  | _ + 1, [] => []
  | fuel + 1, c :: s =>
      match utf8Decode (c :: s) with
      | some (cp, n) => cp :: wideLoop fuel ((c :: s).drop n)
      | none => 0xFFFD :: wideLoop fuel s

def utf8ToWide (s : Bytes) : Wide := wideLoop s.length s

/-! ## Processes and what is inspected of them -/

/-- A process as the system lists it, its texts in UTF-8. -/
structure ListedProcess where
  pid : Pid := 0
  ppid : Pid := 0
  image : Bytes := []
  cmdline : Bytes := []
  session_id : UInt32 := 0
  rss_kb : UInt64 := 0
  readable : Bool := true
  deriving DecidableEq

structure InspectConfig where
  max_bytes : ℕ
  include_mapped : Bool
  max_strings : ℕ

/-- The control that an inspection found, in JSON. -/
abbrev Control := Bytes

/-- What `DumpInspectJson` prints of a process: the error, or the control it found
(`"found"`) and the rest.  The texts in it are escaped, so that `"ok":true` and
`"found":` stand where they are fields and nowhere else. -/
abbrev Dump := Except Bytes (Option Control × Bytes)

/-- A snapshot, with the process it was taken of, the name it was searched for, and
the number of the command that took it. -/
structure Snapshot where
  pid : Pid
  searched : Wide
  found : Option Control
  body : Bytes
  command : ℕ
  deriving DecidableEq

structure InspectAttempt where
  ok : Bool := false
  stale : Bool := false
  attempts : ℕ := 0
  json : Option Snapshot := none
  detail : Bytes := []
  deriving DecidableEq

/-- The attempts that are left; the detail of one that fails is cut. -/
def attempt (dump : ℕ → Dump) (take : Option Control × Bytes → Snapshot) :
    ℕ → InspectAttempt → InspectAttempt
  | 0, a => a
  | left + 1, a =>
      match dump a.attempts with
      | .ok d =>
          { a with ok := true, attempts := a.attempts + 1, json := some (take d),
                   detail := utf8 "inspect ok" }
      | .error json =>
          attempt dump take left { a with attempts := a.attempts + 1, detail := json.take 180 }

/-- The kept snapshot in place of the one that there is not. -/
def orLastKnown (a : InspectAttempt) (last_known : Option Snapshot) (detail : Bytes) :
    InspectAttempt :=
  match last_known with
  | some snap => { a with stale := true, json := some snap, detail := detail }
  | none => a

/-- `InspectWithRetry`, in the command `n`; `dump` is what the attempts give. -/
def inspectWithRetry (n : ℕ) (dump : ℕ → Dump) (pid : Pid) (find : Wide)
    (last_known : Option Snapshot) (retries : ℕ) : InspectAttempt :=
  if pid = 0 then
    orLastKnown { detail := utf8 "no pid" } last_known (utf8 "no pid — last-known snapshot")
  else
    let a := attempt dump (fun d => ⟨pid, find, d.1, d.2, n⟩) (max 1 retries) {}
    if a.ok then a
    else orLastKnown a last_known (utf8 "inspect jitter — last-known snapshot (isolated)")

/-- No attempt gives a snapshot. -/
def Fails (dump : ℕ → Dump) (pid : Pid) (retries : ℕ) : Prop :=
  pid = 0 ∨ ∀ i < max 1 retries, ∃ text, dump i = .error text

instance (dump : ℕ → Dump) (pid : Pid) (retries : ℕ) : Decidable (Fails dump pid retries) :=
  have (i : ℕ) : Decidable (∃ text, dump i = .error text) :=
    match dump i with
    | .error text => isTrue ⟨text, rfl⟩
    | .ok _ => isFalse nofun
  inferInstanceAs (Decidable (_ ∨ _))

theorem attempt_cases (dump : ℕ → Dump) (take : Option Control × Bytes → Snapshot) :
    ∀ (left : ℕ) (a : InspectAttempt), a.ok = false → a.stale = false → a.json = none →
      ((attempt dump take left a).ok = true ∧ (attempt dump take left a).stale = false ∧
          (∃ i < a.attempts + left, ∃ d, dump i = .ok d ∧
            (attempt dump take left a).json = some (take d))) ∨
        ((attempt dump take left a).ok = false ∧ (attempt dump take left a).stale = false ∧
          (attempt dump take left a).json = none ∧
            ∀ i, a.attempts ≤ i → i < a.attempts + left → ∃ text, dump i = .error text) := by
  intro left
  induction left with
  | zero =>
      intro a hok hstale hjson
      exact .inr ⟨hok, hstale, hjson, fun i hle hlt => by omega⟩
  | succ left ih =>
      intro a hok hstale hjson
      rw [attempt]
      cases hd : dump a.attempts with
      | ok d => exact .inl ⟨rfl, hstale, a.attempts, by omega, d, hd, rfl⟩
      | error json =>
          rcases ih { a with attempts := a.attempts + 1, detail := json.take 180 } hok hstale hjson
            with ⟨h₁, h₂, i, hi, h₃⟩ | ⟨h₁, h₂, h₃, hall⟩
          · exact .inl ⟨h₁, h₂, i, by simp only at hi; omega, h₃⟩
          · refine .inr ⟨h₁, h₂, h₃, fun i hle hlt => ?_⟩
            rcases Nat.eq_or_lt_of_le hle with rfl | hlt'
            · exact ⟨json, hd⟩
            · exact hall i hlt' (by simp only; omega)

/-- What an inspection gives is of the process it was asked for; or every attempt
failed, and what is given is what was kept. -/
theorem inspectWithRetry_cases (n : ℕ) (dump : ℕ → Dump) (pid : Pid) (find : Wide)
    (last_known : Option Snapshot) (retries : ℕ) :
    (¬ Fails dump pid retries ∧
        ∃ d : Option Control × Bytes,
          (inspectWithRetry n dump pid find last_known retries).ok = true ∧
          (inspectWithRetry n dump pid find last_known retries).stale = false ∧
          (inspectWithRetry n dump pid find last_known retries).json =
            some ⟨pid, find, d.1, d.2, n⟩) ∨
      (Fails dump pid retries ∧ (inspectWithRetry n dump pid find last_known retries).ok = false ∧
        (inspectWithRetry n dump pid find last_known retries).stale = last_known.isSome ∧
        (inspectWithRetry n dump pid find last_known retries).json = last_known) := by
  rw [inspectWithRetry]
  split
  · next hpid =>
      refine .inr ⟨.inl hpid, ?_⟩
      cases last_known with
      | none => exact ⟨rfl, rfl, rfl⟩
      | some snap => exact ⟨rfl, rfl, rfl⟩
  · next hpid =>
      rcases attempt_cases dump (fun d : Option Control × Bytes => ⟨pid, find, d.1, d.2, n⟩)
          (max 1 retries) {} rfl rfl rfl
        with ⟨hok, hstale, i, hi, d, hd, hjson⟩ | ⟨hok, hstale, hjson, hall⟩
      · refine .inl ⟨?_, d, ?_⟩
        · rintro (h | h)
          · exact hpid h
          · obtain ⟨text, ht⟩ := h i (by simpa using hi)
            exact nomatch ht.symm.trans hd
        · simp only [hok, if_true]
          exact ⟨trivial, hstale, hjson⟩
      · refine .inr ⟨.inr fun i hi => hall i (Nat.zero_le i) (by simpa using hi), ?_⟩
        simp only [hok, Bool.false_eq_true, if_false]
        cases last_known with
        | none => exact ⟨hok, hstale, hjson⟩
        | some snap => exact ⟨hok, rfl, rfl⟩

/-! ## The chain of a process -/

inductive ChainRel where
  | Self | Parent | Child | Sibling | Session | Family | Linked
  deriving DecidableEq

structure ChainMember where
  pid : Pid := 0
  ppid : Pid := 0
  session_id : UInt32 := 0
  image : Bytes := []
  cmdline : Bytes := []
  readable : Bool := false
  rss_kb : UInt64 := 0
  rel : ChainRel := .Self
  deriving DecidableEq

/-- `FindPid` -/
def findPid (all : List ListedProcess) (pid : Pid) : Option ListedProcess :=
  all.find? (fun p => p.pid = pid)

/-- `IsInspectorName` -/
def isInspectorName (image : Bytes) : Bool :=
  let b := lower (basename image)
  contains b (ascii "atlas_mct") || contains b (ascii "atlas_inspect")

/-- `LooksReport` -/
def looksReport (p : ListedProcess) : Bool :=
  contains (lower p.cmdline) (ascii "--report") ||
    contains (lower (basename p.image)) (ascii "atlas_report")

/-- `ProcessFamily`: empty for a process of no known family -/
def processFamily (p : ListedProcess) : Bytes :=
  let b := lower (basename p.image)
  if contains b (ascii "atlas_target") || contains b (ascii "atlas_report") then ascii "atlas"
  else if contains b (ascii "acad") || contains b (ascii "accoreconsole") then ascii "acad"
  else if contains b (ascii "excel") || contains b (ascii "winword") ||
      contains b (ascii "powerpnt") || contains b (ascii "wps") then ascii "office"
  else if contains b (ascii "chrome") || contains b (ascii "msedge") ||
      contains b (ascii "firefox") then ascii "browser"
  else []

def memberOf (p : ListedProcess) (rel : ChainRel) : ChainMember where
  pid := p.pid
  ppid := p.ppid
  session_id := p.session_id
  image := p.image
  cmdline := p.cmdline
  readable := p.readable
  rss_kb := p.rss_kb
  rel := rel

/-- How a listed process is related to the root, which it is not. -/
def relation (root : ListedProcess) (linked : List Pid) (p : ListedProcess) : Option ChainRel :=
  let fam := processFamily root
  if isInspectorName p.image then none
  else if root.ppid ≠ 0 ∧ p.pid = root.ppid then some .Parent
  else if p.ppid ≠ 0 ∧ p.ppid = root.pid then some .Child
  else if p.ppid ≠ 0 ∧ root.ppid ≠ 0 ∧ p.ppid = root.ppid then some .Sibling
  else if fam ≠ [] ∧ processFamily p = fam then
    if p.session_id ≠ 0 ∧ p.session_id = root.session_id then some .Session else some .Family
  else if p.pid ∈ linked then some .Linked
  else none

def hasPid (chain : List ChainMember) (pid : Pid) : Bool := chain.any (fun m => m.pid = pid)

/-- `push`, of a process that is related -/
def push (root : ListedProcess) (linked : List Pid) (out : List ChainMember) (p : ListedProcess) :
    List ChainMember :=
  if p.pid = root.pid then out
  else
    match relation root linked p with
    | some rel => if hasPid out p.pid then out else out ++ [memberOf p rel]
    | none => out

/-- `BuildChain` -/
def buildChain (root_pid : Pid) (all : List ListedProcess) (linked : List Pid) :
    List ChainMember :=
  match findPid all root_pid with
  | none => []
  | some root => all.foldl (push root linked) [memberOf root .Self]

/-- A member that the root's chain had and that is related to the root still. -/
def stillRelated (root root_ppid : Pid) (old : ChainMember) : Bool :=
  decide (old.pid = root ∨ old.ppid = root ∨ (root_ppid ≠ 0 ∧ old.ppid = root_ppid) ∨
    old.rel = .Linked ∨ old.rel = .Family)

def gone (old : ChainMember) : ChainMember := { old with readable := false }

/-- `MergeLastKnown` -/
def mergeLastKnown (live last : List ChainMember) : List ChainMember :=
  match live with
  | [] => (last.filter (fun old => !isInspectorName old.image)).map gone
  | root :: _ =>
      last.foldl
        (fun live old =>
          if hasPid live old.pid || isInspectorName old.image ||
              !stillRelated root.pid root.ppid old then live
          else live ++ [gone old])
        live

/-! ## The report job -/

inductive StageStatus where
  | Pending | Running | Passed | Isolated | Failed | Skipped
  deriving DecidableEq

structure JobStage where
  id : Bytes := []
  role : Bytes := []
  pid : Pid := 0
  image : Bytes := []
  find : Wide := []
  status : StageStatus := .Pending
  attempts : ℕ := 0
  stale : Bool := false
  detail : Bytes := []
  deriving DecidableEq

structure JobResult where
  name : Bytes
  status : Bytes
  stages : List JobStage
  source_pid : Pid
  last_snap : Option Snapshot
  deriving DecidableEq

/-- `role_of` -/
def roleOf (m : ChainMember) : Bytes :=
  if m.rel = .Self then ascii "source"
  else
    let cmd := lower m.cmdline
    let img := lower (basename m.image)
    if contains cmd (ascii "--report") || contains img (ascii "atlas_report") ||
        contains img (ascii "excel") || contains img (ascii "winword") then ascii "report"
    else ascii "related"

/-- What a stage looks for. -/
def stageFind (m : ChainMember) : Wide :=
  if roleOf m = ascii "source" then utf8ToWide (ascii "LAYER_DIMS")
  else if roleOf m = ascii "report" then utf8ToWide (utf8 "报表")
  else []

/-- Only the source is answered by the kept snapshot. -/
def stageCache (m : ChainMember) (last_known : Option Snapshot) : Option Snapshot :=
  if roleOf m = ascii "source" then last_known else none

/-- The stages so far, and the counters. -/
structure JobRun where
  stages : List JobStage := []
  last_snap : Option Snapshot := none
  passed : ℕ := 0
  isolated : ℕ := 0
  stale_ok : ℕ := 0

/-- What the stages of a job are run with: the processes listed, what the attempts at
inspecting give, and the kept snapshot. -/
structure JobInput where
  command : ℕ
  all : List ListedProcess
  dump : Pid → Wide → ℕ → Dump
  last_known : Option Snapshot

/-- The inspection of a member. -/
def JobInput.inspect (j : JobInput) (m : ChainMember) (retries : ℕ) : InspectAttempt :=
  inspectWithRetry j.command (j.dump m.pid (stageFind m)) m.pid (stageFind m)
    (stageCache m j.last_known) retries

/-- The snapshot of the job, if the stage is the source's and there is none yet. -/
def keepFirst (m : ChainMember) (a : InspectAttempt) (last_snap : Option Snapshot) :
    Option Snapshot :=
  if roleOf m = ascii "source" ∧ last_snap = none then a.json else last_snap

def stageOf (m : ChainMember) : JobStage where
  id := roleOf m ++ ascii "-" ++ pidText m.pid
  role := roleOf m
  pid := m.pid
  image := m.image
  find := stageFind m
  status := .Running

def goneDetail : Bytes := utf8 "process gone / tunnel drop — isolated, job continues"
def unreadableDetail : Bytes := utf8 "unreadable — isolated, job continues"
def failedDetail : Bytes := utf8 "inspect failed — isolated"

/-- The stage of a member that is not listed. -/
def runGone (j : JobInput) (m : ChainMember) (r : JobRun) : JobRun :=
  let a := j.inspect m 1
  { r with
    stages := r.stages ++ [{ stageOf m with attempts := a.attempts, stale := a.stale,
                                            status := .Isolated,
                                            detail := if a.stale then a.detail else goneDetail }]
    last_snap := if a.stale then keepFirst m a r.last_snap else r.last_snap
    isolated := r.isolated + 1
    stale_ok := if a.stale then r.stale_ok + 1 else r.stale_ok }

/-- The stage of a member that cannot be read. -/
def runUnreadable (m : ChainMember) (r : JobRun) : JobRun :=
  { r with
    stages := r.stages ++ [{ stageOf m with status := .Isolated, detail := unreadableDetail }]
    isolated := r.isolated + 1 }

/-- The stage of a member that is there. -/
def runLive (j : JobInput) (m : ChainMember) (r : JobRun) : JobRun :=
  let a := j.inspect m 3
  let stage := { stageOf m with attempts := a.attempts, stale := a.stale }
  if a.ok then
    { r with
      stages := r.stages ++ [{ stage with status := .Passed, detail := utf8 "inspect ok" }]
      last_snap := if roleOf m = ascii "source" then a.json else r.last_snap
      passed := r.passed + 1 }
  else if a.stale then
    { r with
      stages := r.stages ++ [{ stage with status := .Isolated, detail := a.detail }]
      last_snap := keepFirst m a r.last_snap
      isolated := r.isolated + 1
      stale_ok := r.stale_ok + 1 }
  else
    { r with
      stages := r.stages ++ [{ stage with status := .Isolated,
                                          detail := if a.detail = [] then failedDetail
                                            else a.detail }]
      isolated := r.isolated + 1 }

def runStage (j : JobInput) (r : JobRun) (m : ChainMember) : JobRun :=
  match findPid j.all m.pid with
  | none => runGone j m r
  | some live => if ¬ m.readable ∨ ¬ live.readable then runUnreadable m r else runLive j m r

def jobStatus (r : JobRun) : Bytes :=
  if r.passed > 0 ∧ r.isolated = 0 then ascii "passed"
  else if r.passed + r.stale_ok > 0 then ascii "isolated"
  else ascii "failed"

/-- The source of a report job if the one asked for is gone: a readable target. -/
def otherSource (all : List ListedProcess) : Option ListedProcess :=
  all.find? (fun p => p.readable && !isInspectorName p.image &&
    decide (processFamily p = ascii "atlas") && !looksReport p)

/-- The source of a report job and its chain. -/
def jobChain (source_pid : Pid) (linked : List Pid) (all : List ListedProcess)
    (last_chain : List ChainMember) : Option (Pid × List ChainMember) :=
  match (findPid all source_pid).or (otherSource all) with
  | some src => some (src.pid, mergeLastKnown (buildChain src.pid all linked) last_chain)
  | none =>
      match last_chain with
      | [] => none
      | first :: _ => some (first.pid, mergeLastKnown (last_chain.map gone) last_chain)

/-- `RunReportJob` -/
def runReportJob (j : JobInput) (source_pid : Pid) (linked : List Pid)
    (last_chain : List ChainMember) : JobResult :=
  match jobChain source_pid linked j.all last_chain with
  | none =>
      { name := ascii "report"
        status := ascii "failed"
        stages := [{ id := ascii "source", role := ascii "source", status := .Failed,
                     detail := ascii "no source process for report job" }]
        source_pid := 0
        last_snap := none }
  | some (pid, chain) =>
      let r := chain.foldl (runStage j) {}
      { name := ascii "report"
        status := jobStatus r
        stages := r.stages
        source_pid := pid
        last_snap := r.last_snap }

/-! ## Where the snapshot of a job comes from -/

/-- The root is the only member of its pid, and the only source that may be readable. -/
def OneSource (pid : Pid) : List ChainMember → Prop
  | [] => True
  | root :: tail =>
      (root.readable = true → root.pid = pid ∧ ∀ m ∈ tail, m.pid ≠ pid) ∧
        ∀ m ∈ tail, m.rel = .Self → m.readable = false

theorem hasPid_eq_false {chain : List ChainMember} {pid : Pid} :
    hasPid chain pid = false ↔ ∀ m ∈ chain, m.pid ≠ pid := by
  simp [hasPid]

theorem relation_ne_self {root : ListedProcess} {linked : List Pid} {p : ListedProcess}
    {rel : ChainRel} (h : relation root linked p = some rel) : rel ≠ .Self := by
  rintro rfl
  simp only [relation] at h
  grind

theorem foldl_push (root : ListedProcess) (linked : List Pid) :
    ∀ (all : List ListedProcess) (tail : List ChainMember),
      (∀ m ∈ tail, m.pid ≠ root.pid ∧ m.rel ≠ .Self) →
        ∃ tail', all.foldl (push root linked) (memberOf root .Self :: tail) =
            memberOf root .Self :: tail' ∧ ∀ m ∈ tail', m.pid ≠ root.pid ∧ m.rel ≠ .Self := by
  intro all
  induction all with
  | nil => exact fun tail h => ⟨tail, rfl, h⟩
  | cons p all ih =>
      intro tail h
      rw [List.foldl_cons, push]
      split
      · exact ih tail h
      · next hroot =>
          split
          · next rel hrel =>
              split
              · exact ih tail h
              · refine ih (tail ++ [memberOf p rel]) fun m hm => ?_
                rcases List.mem_append.mp hm with hm | hm
                · exact h m hm
                · obtain rfl := List.mem_singleton.mp hm
                  exact ⟨hroot, relation_ne_self hrel⟩
          · exact ih tail h

theorem buildChain_cases (root_pid : Pid) (all : List ListedProcess) (linked : List Pid) :
    (findPid all root_pid = none ∧ buildChain root_pid all linked = []) ∨
      ∃ root tail, findPid all root_pid = some root ∧
        buildChain root_pid all linked = memberOf root .Self :: tail ∧
          ∀ m ∈ tail, m.pid ≠ root.pid ∧ m.rel ≠ .Self := by
  rw [buildChain]
  cases hroot : findPid all root_pid with
  | none => exact .inl ⟨rfl, rfl⟩
  | some root =>
      obtain ⟨tail, heq, htail⟩ := foldl_push root linked all [] (fun m hm => nomatch hm)
      exact .inr ⟨root, tail, rfl, heq, htail⟩

/-- What is merged into a chain is not readable, and not of a pid that the chain has. -/
theorem mergeLastKnown_cons (root : ChainMember) (tail last : List ChainMember) :
    ∃ more, mergeLastKnown (root :: tail) last = root :: (tail ++ more) ∧
      ∀ m ∈ more, m.pid ≠ root.pid ∧ m.readable = false := by
  suffices h : ∀ (last more : List ChainMember),
      (∀ m ∈ more, m.pid ≠ root.pid ∧ m.readable = false) →
        ∃ more', last.foldl
            (fun live old =>
              if hasPid live old.pid || isInspectorName old.image ||
                  !stillRelated root.pid root.ppid old then live
              else live ++ [gone old])
            (root :: (tail ++ more)) = root :: (tail ++ more') ∧
          ∀ m ∈ more', m.pid ≠ root.pid ∧ m.readable = false by
    simpa [mergeLastKnown] using h last [] (fun m hm => nomatch hm)
  intro last
  induction last with
  | nil => exact fun more h => ⟨more, rfl, h⟩
  | cons old last ih =>
      intro more h
      rw [List.foldl_cons]
      split
      · exact ih more h
      · next hnew =>
          rw [List.cons_append, List.append_assoc]
          refine ih (more ++ [gone old]) fun m hm => ?_
          rcases List.mem_append.mp hm with hm | hm
          · exact h m hm
          · obtain rfl := List.mem_singleton.mp hm
            have hfresh : hasPid (root :: (tail ++ more)) old.pid = false := by
              simp only [Bool.or_eq_true, not_or, Bool.not_eq_true] at hnew
              exact hnew.1.1
            exact ⟨(hasPid_eq_false.mp hfresh root List.mem_cons_self).symm, rfl⟩

theorem mergeLastKnown_gone (chain last : List ChainMember)
    (hgone : ∀ m ∈ chain, m.readable = false) :
    ∀ m ∈ mergeLastKnown chain last, m.readable = false := by
  cases chain with
  | nil =>
      intro m hm
      obtain ⟨old, -, rfl⟩ := List.mem_map.mp hm
      rfl
  | cons root tail =>
      obtain ⟨more, heq, hmore⟩ := mergeLastKnown_cons root tail last
      intro m hm
      rw [heq, ← List.cons_append] at hm
      rcases List.mem_append.mp hm with hm | hm
      · exact hgone m hm
      · exact (hmore m hm).2

theorem findPid_pid {all : List ListedProcess} {pid : Pid} {p : ListedProcess}
    (h : findPid all pid = some p) : p.pid = pid := by
  simpa using List.find?_some h

theorem oneSource_of_gone (pid : Pid) {chain : List ChainMember}
    (hgone : ∀ m ∈ chain, m.readable = false) : OneSource pid chain := by
  cases chain with
  | nil => trivial
  | cons root tail =>
      refine ⟨fun h => ?_, fun m hm _ => hgone m (List.mem_cons_of_mem root hm)⟩
      rw [hgone root List.mem_cons_self] at h
      exact nomatch h

/-- The chain that a report job runs over. -/
theorem jobChain_oneSource {source_pid pid : Pid} {linked : List Pid} {all : List ListedProcess}
    {last_chain chain : List ChainMember}
    (h : jobChain source_pid linked all last_chain = some (pid, chain)) : OneSource pid chain := by
  unfold jobChain at h
  split at h
  · next src hsrc =>
      obtain ⟨rfl, rfl⟩ := Prod.mk.inj (Option.some.inj h)
      rcases buildChain_cases src.pid all linked with ⟨-, hnil⟩ | ⟨root, tail, hroot, heq, htail⟩
      · rw [hnil]
        refine oneSource_of_gone _ fun m hm => ?_
        obtain ⟨old, -, rfl⟩ := List.mem_map.mp hm
        rfl
      · obtain ⟨more, hmerge, hmore⟩ := mergeLastKnown_cons (memberOf root .Self) tail last_chain
        have hpid : root.pid = src.pid := findPid_pid hroot
        rw [heq, hmerge]
        refine ⟨fun _ => ⟨hpid, fun m hm => ?_⟩, fun m hm hself => ?_⟩
        · rcases List.mem_append.mp hm with hm | hm
          · exact hpid ▸ (htail m hm).1
          · exact hpid ▸ (hmore m hm).1
        · rcases List.mem_append.mp hm with hm | hm
          · exact absurd hself (htail m hm).2
          · exact (hmore m hm).2
  · split at h
    · exact nomatch h
    · next first rest =>
        obtain ⟨rfl, rfl⟩ := Prod.mk.inj (Option.some.inj h)
        refine oneSource_of_gone _ (mergeLastKnown_gone _ _ fun m hm => ?_)
        obtain ⟨old, -, rfl⟩ := List.mem_map.mp hm
        rfl

/-- A member marked as the source that is answered by the kept snapshot. -/
def FallsBack (j : JobInput) (m : ChainMember) : Prop :=
  m.rel = .Self ∧
    match findPid j.all m.pid with
    | none => Fails (j.dump m.pid (stageFind m)) m.pid 1
    | some live => m.readable = true ∧ live.readable = true ∧
        Fails (j.dump m.pid (stageFind m)) m.pid 3

/-- A member marked as the source of which a snapshot is taken. -/
def Taken (j : JobInput) (m : ChainMember) : Prop :=
  m.rel = .Self ∧ m.readable = true ∧
    ∃ live, findPid j.all m.pid = some live ∧ live.readable = true ∧
      ¬ Fails (j.dump m.pid (stageFind m)) m.pid 3

theorem roleOf_source (m : ChainMember) : roleOf m = ascii "source" ↔ m.rel = .Self := by
  have hreport : ascii "report" ≠ ascii "source" := by decide
  have hrelated : ascii "related" ≠ ascii "source" := by decide
  rw [roleOf]
  split
  · next hself => exact ⟨fun _ => hself, fun _ => rfl⟩
  · next hself =>
      refine ⟨fun h => ?_, fun h => absurd h hself⟩
      dsimp only at h
      split at h
      · exact absurd h hreport
      · exact absurd h hrelated

/-- What one stage adds, and what it makes of the job's snapshot. -/
structure Staged (j : JobInput) (m : ChainMember) (r r' : JobRun) (stage : JobStage) : Prop where
  stages : r'.stages = r.stages ++ [stage]
  pid : stage.pid = m.pid
  kept : ¬ Taken j m → r'.last_snap = r.last_snap ∨
    r.last_snap = none ∧ r'.last_snap = j.last_known ∧ FallsBack j m ∧ stage.stale = true
  taken : Taken j m → stage.stale = false ∧
    ∃ d : Option Control × Bytes,
      r'.last_snap = some ⟨m.pid, stageFind m, d.1, d.2, j.command⟩

section

variable (j : JobInput) (m : ChainMember)

theorem inspect_fresh {retries : ℕ} (h : ¬ Fails (j.dump m.pid (stageFind m)) m.pid retries) :
    (j.inspect m retries).ok = true ∧ (j.inspect m retries).stale = false ∧
      ∃ d : Option Control × Bytes, (j.inspect m retries).json =
        some ⟨m.pid, stageFind m, d.1, d.2, j.command⟩ := by
  rcases inspectWithRetry_cases j.command (j.dump m.pid (stageFind m)) m.pid (stageFind m)
      (stageCache m j.last_known) retries with ⟨-, d, hok, hstale, hjson⟩ | ⟨hfails, -⟩
  · exact ⟨hok, hstale, d, hjson⟩
  · exact absurd hfails h

theorem inspect_failed {retries : ℕ} (h : Fails (j.dump m.pid (stageFind m)) m.pid retries) :
    (j.inspect m retries).ok = false ∧
      (j.inspect m retries).stale = (stageCache m j.last_known).isSome ∧
        (j.inspect m retries).json = stageCache m j.last_known := by
  rcases inspectWithRetry_cases j.command (j.dump m.pid (stageFind m)) m.pid (stageFind m)
      (stageCache m j.last_known) retries with ⟨hnot, -⟩ | ⟨-, hok, hstale, hjson⟩
  · exact absurd h hnot
  · exact ⟨hok, hstale, hjson⟩

/-- What a stage that is answered by the kept snapshot makes of the job's. -/
theorem keepFirst_cases {retries : ℕ} (r : JobRun)
    (h : Fails (j.dump m.pid (stageFind m)) m.pid retries) :
    keepFirst m (j.inspect m retries) r.last_snap = r.last_snap ∨
      r.last_snap = none ∧
        keepFirst m (j.inspect m retries) r.last_snap = j.last_known ∧ m.rel = .Self := by
  rw [keepFirst]
  split
  · next hsource =>
      right
      rw [(inspect_failed j m h).2.2, stageCache, if_pos hsource.1]
      exact ⟨hsource.2, rfl, (roleOf_source m).mp hsource.1⟩
  · exact .inl rfl

theorem runGone_staged (r : JobRun) (hnone : findPid j.all m.pid = none) :
    ∃ stage, Staged j m r (runGone j m r) stage := by
  refine ⟨_, rfl, rfl, fun _ => ?_, ?_⟩
  · by_cases hfails : Fails (j.dump m.pid (stageFind m)) m.pid 1
    · by_cases hstale : (j.inspect m 1).stale = true
      · simp only [runGone, hstale, if_true]
        rcases keepFirst_cases j m r hfails with heq | ⟨hfirst, heq, hself⟩
        · exact .inl heq
        · refine .inr ⟨hfirst, heq, ⟨hself, ?_⟩, trivial⟩
          rw [hnone]
          exact hfails
      · exact .inl (by simp only [runGone, hstale, Bool.false_eq_true, if_false])
    · have hstale := (inspect_fresh j m hfails).2.1
      exact .inl (by simp only [runGone, hstale, Bool.false_eq_true, if_false])
  · rintro ⟨-, -, live, hlive, -⟩
    exact nomatch hnone.symm.trans hlive

theorem runLive_staged (r : JobRun) {live : ListedProcess} (hlive : findPid j.all m.pid = some live)
    (hreadable : m.readable = true ∧ live.readable = true) :
    ∃ stage, Staged j m r (runLive j m r) stage := by
  by_cases hfails : Fails (j.dump m.pid (stageFind m)) m.pid 3
  · obtain ⟨hok, -, -⟩ := inspect_failed j m hfails
    have hnot : ¬ Taken j m := by
      rintro ⟨-, -, live', hlive', -, hnot⟩
      exact hnot hfails
    by_cases hstale : (j.inspect m 3).stale = true
    · refine ⟨{ stageOf m with
        attempts := (j.inspect m 3).attempts, stale := (j.inspect m 3).stale, status := .Isolated,
        detail := (j.inspect m 3).detail }, ?_, rfl, fun _ => ?_, fun h => absurd h hnot⟩
      · simp only [runLive, hok, hstale, Bool.false_eq_true, if_false, if_true]
      · simp only [runLive, hok, hstale, Bool.false_eq_true, if_false, if_true]
        rcases keepFirst_cases j m r hfails with heq | ⟨hfirst, heq, hself⟩
        · exact .inl heq
        · refine .inr ⟨hfirst, heq, ⟨hself, ?_⟩, trivial⟩
          rw [hlive]
          exact ⟨hreadable.1, hreadable.2, hfails⟩
    · refine ⟨{ stageOf m with
        attempts := (j.inspect m 3).attempts, stale := (j.inspect m 3).stale, status := .Isolated,
        detail := if (j.inspect m 3).detail = [] then failedDetail else (j.inspect m 3).detail },
        ?_, rfl, fun _ => .inl ?_, fun h => absurd h hnot⟩
      · simp only [runLive, hok, hstale, Bool.false_eq_true, if_false]
      · simp only [runLive, hok, hstale, Bool.false_eq_true, if_false]
  · obtain ⟨hok, hstale, d, hjson⟩ := inspect_fresh j m hfails
    refine ⟨{ stageOf m with
      attempts := (j.inspect m 3).attempts, stale := (j.inspect m 3).stale, status := .Passed,
      detail := utf8 "inspect ok" }, ?_, rfl, fun hnot => .inl ?_, fun htaken => ⟨hstale, d, ?_⟩⟩
    · simp only [runLive, hok, if_true]
    · have hrole : roleOf m ≠ ascii "source" := fun h =>
        hnot ⟨(roleOf_source m).mp h, hreadable.1, live, hlive, hreadable.2, hfails⟩
      simp only [runLive, hok, if_true, if_neg hrole]
    · simp only [runLive, hok, if_true, if_pos ((roleOf_source m).mpr htaken.1), hjson]

theorem runStage_staged (r : JobRun) : ∃ stage, Staged j m r (runStage j r m) stage := by
  rw [runStage]
  split
  · next hnone => exact runGone_staged j m r hnone
  · next live hlive =>
      split
      · next hun =>
          refine ⟨_, rfl, rfl, fun _ => .inl rfl, ?_⟩
          rintro ⟨-, hm, live', hlive', hl, -⟩
          obtain rfl := Option.some.inj (hlive.symm.trans hlive')
          rcases hun with hun | hun
          · exact absurd hm hun
          · exact absurd hl hun
      · next hread =>
          rw [not_or, not_not, not_not] at hread
          exact runLive_staged j m r hlive hread

end

/-- Over members none of which may be a readable source, the snapshot is left alone or
is the kept one, of a member that is marked. -/
theorem runStages_gone (j : JobInput) : ∀ (chain : List ChainMember) (r : JobRun),
    (∀ m ∈ chain, m.rel = .Self → m.readable = false) →
      ∃ more, (chain.foldl (runStage j) r).stages = r.stages ++ more ∧
        (∀ stage ∈ more, ∃ m ∈ chain, stage.pid = m.pid) ∧
          ((chain.foldl (runStage j) r).last_snap = r.last_snap ∨
            r.last_snap = none ∧ (chain.foldl (runStage j) r).last_snap = j.last_known ∧
              ∃ m ∈ chain, FallsBack j m ∧
                ∃ stage ∈ more, stage.pid = m.pid ∧ stage.stale = true) := by
  intro chain
  induction chain with
  | nil => exact fun r _ => ⟨[], (List.append_nil _).symm, fun s hs => (nomatch hs), .inl rfl⟩
  | cons m chain ih =>
      intro r hgone
      obtain ⟨stage, hs⟩ := runStage_staged j m r
      obtain ⟨more, hstages, hpids, hsnap⟩ := ih (runStage j r m)
        fun x hx => hgone x (List.mem_cons_of_mem m hx)
      have hnot : ¬ Taken j m := by
        rintro ⟨hself, hread, -⟩
        rw [hgone m List.mem_cons_self hself] at hread
        exact nomatch hread
      refine ⟨stage :: more, ?_, ?_, ?_⟩
      · rw [List.foldl_cons, hstages, hs.stages, List.append_assoc, List.singleton_append]
      · intro s hmem
        rcases List.mem_cons.mp hmem with rfl | hmem
        · exact ⟨m, List.mem_cons_self, hs.pid⟩
        · obtain ⟨x, hx, heq⟩ := hpids s hmem
          exact ⟨x, List.mem_cons_of_mem m hx, heq⟩
      · rw [List.foldl_cons]
        rcases hs.kept hnot with hsame | ⟨hfirst, hsame, hfall, hmark⟩
        · rw [hsame] at hsnap
          rcases hsnap with heq | ⟨hfirst, heq, x, hx, hfall, s, hmem, hmark⟩
          · exact .inl heq
          · exact .inr ⟨hfirst, heq, x, List.mem_cons_of_mem m hx, hfall, s,
              List.mem_cons_of_mem stage hmem, hmark⟩
        · refine .inr ⟨hfirst, ?_, m, List.mem_cons_self, hfall, stage, List.mem_cons_self, hs.pid,
            hmark⟩
          rcases hsnap with heq | ⟨-, heq, -⟩
          · rw [heq, hsame]
          · exact heq

/-- A stage of the source is marked stale. -/
def sourceStale (job : JobResult) : Bool :=
  job.stages.any (fun s => decide (s.pid = job.source_pid) && s.stale)

/-- Where the snapshot of a job comes from: it is taken of the source, and the source is
not marked; or it is the kept one, and a member that falls back is marked. -/
theorem jobSnapshot (j : JobInput) (source_pid : Pid) (linked : List Pid)
    (last_chain : List ChainMember) {snap : Snapshot}
    (h : (runReportJob j source_pid linked last_chain).last_snap = some snap) :
    ∃ pid chain, jobChain source_pid linked j.all last_chain = some (pid, chain) ∧
      (runReportJob j source_pid linked last_chain).source_pid = pid ∧
        ((snap.pid = pid ∧ snap.command = j.command ∧
            sourceStale (runReportJob j source_pid linked last_chain) = false) ∨
          (j.last_known = some snap ∧ (∀ root ∈ chain.head?, ¬ Taken j root) ∧
            ∃ m ∈ chain, FallsBack j m ∧
              ∃ stage ∈ (runReportJob j source_pid linked last_chain).stages,
                stage.pid = m.pid ∧ stage.stale = true)) := by
  rw [runReportJob] at h ⊢
  cases hchain : jobChain source_pid linked j.all last_chain with
  | none =>
      rw [hchain] at h
      exact nomatch h
  | some found =>
      obtain ⟨pid, chain⟩ := found
      rw [hchain] at h
      have hone := jobChain_oneSource hchain
      refine ⟨pid, chain, rfl, rfl, ?_⟩
      simp only at h ⊢
      cases chain with
      | nil => exact nomatch h
      | cons root tail =>
          obtain ⟨stage, hs⟩ := runStage_staged j root {}
          obtain ⟨more, hstages, hpids, hsnap⟩ := runStages_gone j tail (runStage j {} root) hone.2
          rw [List.foldl_cons] at h ⊢
          have hall : (tail.foldl (runStage j) (runStage j {} root)).stages = stage :: more := by
            rw [hstages, hs.stages]
            rfl
          by_cases htaken : Taken j root
          · left
            obtain ⟨hroot, htail⟩ := hone.1 htaken.2.1
            obtain ⟨hstale, d, hfresh⟩ := hs.taken htaken
            rcases hsnap with heq | ⟨hfirst, -⟩
            · rw [heq, hfresh] at h
              obtain rfl := Option.some.inj h
              refine ⟨hroot, rfl, ?_⟩
              rw [sourceStale, hall, List.any_eq_false]
              intro s hmem
              rcases List.mem_cons.mp hmem with rfl | hmem
              · simp [hstale]
              · obtain ⟨x, hx, hpid⟩ := hpids s hmem
                simp [hpid, htail x hx]
            · exact nomatch hfirst.symm.trans hfresh
          · right
            have hhead : ∀ x ∈ (root :: tail).head?, ¬ Taken j x := fun x hx => by
              obtain rfl := Option.some.inj hx
              exact htaken
            rw [hall]
            rcases hs.kept htaken with hsame | ⟨-, hsame, hfall, hmark⟩
            · rcases hsnap with heq | ⟨-, heq, x, hx, hfall, s, hmem, hmark⟩
              · rw [heq, hsame] at h
                exact nomatch h
              · exact ⟨heq.symm.trans h, hhead, x, List.mem_cons_of_mem root hx, hfall, s,
                  List.mem_cons_of_mem stage hmem, hmark⟩
            · refine ⟨?_, hhead, root, List.mem_cons_self, hfall, stage, List.mem_cons_self, hs.pid,
                hmark⟩
              rcases hsnap with heq | ⟨-, heq, -⟩
              · rw [← hsame, ← heq, h]
              · rw [← heq, h]

end Secdogie.Atlas
