/-
# `Secdogie.Fleet.Machine` — one desktop behind its connections

A node serves one connection after another.  Each connection has a node object
of its own, with its busy flag and its stop event, and a task runs in a worker
thread that outlives the connection.

`Sound` says that a worker's task is the one its session holds, that its stop
event is set only by a stop for it, and that one task runs at a time.  The last
is kept by every step but one: a session that accepts a task while a worker of
an earlier session has not returned.
-/
import Secdogie.Fleet.Settled

namespace Secdogie.Fleet

/-- What a node sends. -/
inductive Report where
  | hello (hello : Hello)
  | status (status : Status)
  | result (result : Result)

/-- How far a worker is in `_run`. -/
inductive Phase where
  | starting
  | running
  | returned (code : ℤ) (summary : String)
  /-- `current_task` is cleared -/
  | cleared (code : ℤ) (summary : String)
  | reported
  | gone

/-- `run_task` has not returned. -/
def Phase.executing : Phase → Bool
  | .starting | .running => true
  | _ => false

/-- The worker's task is still `current_task`. -/
def Phase.busy : Phase → Bool
  | .starting | .running | .returned _ _ => true
  | _ => false

theorem Phase.busy_of_executing {p : Phase} (h : p.executing = true) : p.busy = true := by
  cases p with
  | starting => rfl
  | running => rfl
  | _ => cases h

structure Worker (O : Type) where
  session : ℕ
  task_id : String
  task : String
  options : O
  phase : Phase := .starting
  /-- a stop for its task has been accepted -/
  stopped : Bool := false

/-- A connection, and the `Node` that serves it. -/
structure Session (O : Type) where
  conn : ℕ
  /-- `connect_and_serve` has not returned -/
  live : Bool := true
  /-- the session was ended from outside -/
  halted : Bool := false
  /-- the coordinator still reads the connection -/
  served : Bool := true
  current_task : Option String := none
  stop : Bool := false
  up : List Report := []
  down : List (Message O) := []

structure Machine (O : Type) where
  hello : Hello
  sessions : List (Session O) := []
  workers : List (Worker O) := []

inductive Work where
  | go
  | progress (step : ℤ) (detail : String)
  | finish (code : ℤ) (summary : String)
  | clear
  | report
  | idle
  /-- a send that raises ends the thread -/
  | die

namespace Machine

variable {O : Type}

def onSession (m : Machine O) (i : ℕ) (f : Session O → Session O) : Machine O :=
  { m with sessions := m.sessions.modify i f }

/-- `send`: on a connection that is gone the message is only logged. -/
def send (m : Machine O) (i : ℕ) (r : Report) : Machine O :=
  m.onSession i (fun s => if s.live then { s with up := s.up ++ [r] } else s)

/-- The session is new: its node says hello. -/
def dial (m : Machine O) (conn : ℕ) : Option (Machine O) :=
  if m.sessions.all (fun s => !s.live && !s.halted && s.conn ≠ conn) then
    some { m with sessions := m.sessions ++ [{ conn, up := [.hello m.hello] }] }
  else none

/-- `_start` -/
def start (m : Machine O) (i : ℕ) (s : Session O) (task_id task : String) (options : O) :
    Machine O :=
  match s.current_task with
  | some t => m.send i (.result {
      node_id := m.hello.node_id, task_id, code := 7, summary := "node busy with " ++ t })
  | none =>
      { m.onSession i (fun s => { s with current_task := some task_id, stop := false }) with
        workers := m.workers ++ [{ session := i, task_id, task, options }] }

/-- The stop is noted for the workers that run the task. -/
def noted (m : Machine O) (task_id : String) : Machine O :=
  { m with workers := m.workers.map (fun w =>
      if w.task_id = task_id ∧ w.phase.executing = true then { w with stopped := true } else w) }

/-- `_request_stop` -/
def request_stop (m : Machine O) (i : ℕ) (s : Session O) (task_id : Option String) : Machine O :=
  match s.current_task with
  | none => m
  | some t =>
      if task_id ≠ none ∧ task_id ≠ some t then m
      else (m.noted t).onSession i (fun s => { s with stop := true })

/-- `handle` -/
def handle (m : Machine O) (i : ℕ) (s : Session O) : Message O → Machine O
  | .assign task_id task options => m.start i s task_id task options
  | .stop task_id => m.request_stop i s task_id

/-- The session reads its next message. -/
def read (m : Machine O) (i : ℕ) : Option (Machine O) :=
  match m.sessions[i]? with
  | none => none
  | some s =>
      match s.live, s.down with
      | true, msg :: rest =>
          some ((m.onSession i (fun s => { s with down := rest })).handle i s msg)
      | _, _ => none

/-- The next message of the session is no task that it would accept while a
worker has not returned. -/
def alone (m : Machine O) (i : ℕ) : Bool :=
  match m.sessions[i]? with
  | none => true
  | some s =>
      match s.current_task, s.down with
      | none, .assign _ _ _ :: _ => m.workers.all (fun w => !w.phase.executing)
      | _, _ => true

/-- `connect_and_serve` returns: the connection has ended, or `stop_event` is set. -/
def leave (m : Machine O) (i : ℕ) (halt : Bool) : Machine O :=
  m.onSession i (fun s => if s.live then
    { s with live := false, halted := halt, stop := s.stop || halt } else s)

def setPhase (m : Machine O) (k : ℕ) (w : Worker O) (phase : Phase) : Machine O :=
  { m with workers := m.workers.set k { w with phase } }

/-- A step of `_run`. -/
def work (m : Machine O) (k : ℕ) (a : Work) : Option (Machine O) :=
  match m.workers[k]? with
  | none => none
  | some w =>
      match w.phase, a with
      | .starting, .go =>
          some ((m.send w.session (.status {
            node_id := m.hello.node_id, task_id := some w.task_id, detail := "starting" })).setPhase
            k w .running)
      | .running, .progress step detail =>
          some (m.send w.session (.status {
            node_id := m.hello.node_id, task_id := some w.task_id, step, detail }))
      | .running, .finish code summary => some (m.setPhase k w (.returned code summary))
      | .returned code summary, .clear =>
          some ((m.onSession w.session (fun s => { s with current_task := none })).setPhase k w
            (.cleared code summary))
      | .cleared code summary, .report =>
          some ((m.send w.session (.result {
            node_id := m.hello.node_id, task_id := w.task_id, code, summary })).setPhase k w
            .reported)
      | .reported, .idle =>
          some ((m.send w.session (.status { node_id := m.hello.node_id })).setPhase k w .gone)
      | .starting, .die => some (m.setPhase k w .gone)
      | .cleared _ _, .die => some (m.setPhase k w .gone)
      | .reported, .die => some (m.setPhase k w .gone)
      | _, _ => none

/-! ## What a worker can rely on -/

structure Sound (m : Machine O) : Prop where
  /-- only the last session is served -/
  live : ∀ (i : ℕ) (s : Session O), m.sessions[i]? = some s → s.live = true → i + 1 = m.sessions.length
  halted : ∀ (i : ℕ) (s : Session O), m.sessions[i]? = some s → s.halted = true → s.live = false
  /-- the task of a busy worker is the one its session holds -/
  holds : ∀ w ∈ m.workers, w.phase.busy = true →
    ∃ s, m.sessions[w.session]? = some s ∧ s.current_task = some w.task_id
  own : ∀ (j k : ℕ) (v w : Worker O), m.workers[j]? = some v → m.workers[k]? = some w →
    v.phase.busy = true → w.phase.busy = true → v.session = w.session → j = k
  alone : ∀ (j k : ℕ) (v w : Worker O), m.workers[j]? = some v → m.workers[k]? = some w →
    v.phase.executing = true → w.phase.executing = true → j = k
  /-- what is executed was started after any other task that is held -/
  later : ∀ (i : ℕ) (s : Session O), m.sessions[i]? = some s → s.current_task ≠ none →
    ∀ w ∈ m.workers, w.phase.executing = true → i ≤ w.session
  /-- its stop event is set by a stop for its task, or as the session ends -/
  stop : ∀ w ∈ m.workers, w.phase.executing = true → ∀ s, m.sessions[w.session]? = some s →
    s.stop = (w.stopped || s.halted)

/-- The part of a session that the workers and the reader share. -/
def core (s : Session O) : Bool × Bool × Option String × Bool :=
  (s.live, s.halted, s.current_task, s.stop)

section

variable {m m' : Machine O} {i k : ℕ}

/-- Only the streams of the sessions differ. -/
theorem Sound.streams (h : Sound m) (hs : m'.sessions.map core = m.sessions.map core)
    (hw : m'.workers = m.workers) : Sound m' := by
  have hlen : m'.sessions.length = m.sessions.length := by
    rw [← List.length_map (f := core), hs, List.length_map]
  have hback : ∀ (i : ℕ) (s' : Session O), m'.sessions[i]? = some s' →
      ∃ s, m.sessions[i]? = some s ∧ core s = core s' := fun i s' hi => by
    have hmap := congrArg (fun l => l[i]?) hs
    simp only [List.getElem?_map, hi, Option.map_some] at hmap
    exact Option.map_eq_some_iff.mp hmap.symm
  have hforth : ∀ (i : ℕ) (s : Session O), m.sessions[i]? = some s →
      ∃ s', m'.sessions[i]? = some s' ∧ core s' = core s := fun i s hi => by
    have hmap := congrArg (fun l => l[i]?) hs
    simp only [List.getElem?_map, hi, Option.map_some] at hmap
    exact Option.map_eq_some_iff.mp hmap
  constructor
  · intro i s' hi hlive
    obtain ⟨s, hs, hcore⟩ := hback i s' hi
    simp only [core, Prod.mk.injEq] at hcore
    rw [hlen]
    exact h.live i s hs (hcore.1.trans hlive)
  · intro i s' hi hhalt
    obtain ⟨s, hs, hcore⟩ := hback i s' hi
    simp only [core, Prod.mk.injEq] at hcore
    exact hcore.1 ▸ h.halted i s hs (hcore.2.1.trans hhalt)
  · intro w hmem hbusy
    obtain ⟨s, hs, hcur⟩ := h.holds w (hw ▸ hmem) hbusy
    obtain ⟨s', hs', hcore⟩ := hforth _ s hs
    simp only [core, Prod.mk.injEq] at hcore
    exact ⟨s', hs', hcore.2.2.1.trans hcur⟩
  · exact hw ▸ h.own
  · exact hw ▸ h.alone
  · intro i s' hi hcur w hmem hexec
    obtain ⟨s, hs, hcore⟩ := hback i s' hi
    simp only [core, Prod.mk.injEq] at hcore
    exact h.later i s hs (hcore.2.2.1 ▸ hcur) w (hw ▸ hmem) hexec
  · intro w hmem hexec s' hs'
    obtain ⟨s, hs, hcore⟩ := hback _ s' hs'
    simp only [core, Prod.mk.injEq] at hcore
    rw [← hcore.2.2.2, ← hcore.2.1]
    exact h.stop w (hw ▸ hmem) hexec s hs

theorem map_core_modify (l : List (Session O)) (i : ℕ) {f : Session O → Session O}
    (hf : ∀ s, core (f s) = core s) : (l.modify i f).map core = l.map core := by
  apply List.ext_getElem?
  intro j
  rw [List.getElem?_map, List.getElem?_map, List.getElem?_modify]
  cases l[j]? with
  | none => rfl
  | some s =>
      simp only [Option.map_eq_map, Option.map_some]
      split_ifs
      · rw [hf]
      · rfl

theorem Sound.onStreams (h : Sound m) {f : Session O → Session O}
    (hf : ∀ s, core (f s) = core s) : Sound (m.onSession i f) :=
  h.streams (map_core_modify _ _ hf) rfl

theorem Sound.send (h : Sound m) (r : Report) : Sound (m.send i r) :=
  h.onStreams (fun s => by split_ifs <;> rfl)

/-- A worker goes on, and at most gives up its task. -/
theorem Sound.setPhase (h : Sound m) {w : Worker O} (hw : m.workers[k]? = some w) {p : Phase}
    (hexec : p.executing = true → w.phase.executing = true)
    (hbusy : p.busy = true → w.phase.busy = true) : Sound (m.setPhase k w p) := by
  -- each worker of the new list is one of the old, with another phase at most
  have hback : ∀ (j : ℕ) (v' : Worker O), (m.workers.set k { w with phase := p })[j]? = some v' →
      ∃ v, m.workers[j]? = some v ∧ v'.session = v.session ∧ v'.task_id = v.task_id ∧
        v'.stopped = v.stopped ∧ (v'.phase.executing = true → v.phase.executing = true) ∧
        (v'.phase.busy = true → v.phase.busy = true) := by
    intro j v' hj
    rw [List.getElem?_set] at hj
    split_ifs at hj with hjk hlt
    · obtain rfl := Option.some.inj hj
      exact ⟨w, hjk ▸ hw, rfl, rfl, rfl, hexec, hbusy⟩
    · exact ⟨v', hj, rfl, rfl, rfl, id, id⟩
  have hmem : ∀ v' ∈ (m.workers.set k { w with phase := p }), ∃ v ∈ m.workers,
      v'.session = v.session ∧ v'.task_id = v.task_id ∧ v'.stopped = v.stopped ∧
        (v'.phase.executing = true → v.phase.executing = true) ∧
        (v'.phase.busy = true → v.phase.busy = true) := by
    intro v' hv'
    obtain ⟨j, hj⟩ := List.mem_iff_getElem?.mp hv'
    obtain ⟨v, hv, hrest⟩ := hback j v' hj
    exact ⟨v, List.mem_of_getElem? hv, hrest⟩
  constructor
  · exact h.live
  · exact h.halted
  · intro v' hv' hb
    obtain ⟨v, hv, hsession, htask, _, _, hold⟩ := hmem v' hv'
    rw [hsession, htask]
    exact h.holds v hv (hold hb)
  · intro j l v' w' hj hl hbv hbw hsame
    obtain ⟨v, hv, hsv, _, _, _, hbv'⟩ := hback j v' hj
    obtain ⟨u, hu, hsu, _, _, _, hbu'⟩ := hback l w' hl
    exact h.own j l v u hv hu (hbv' hbv) (hbu' hbw) (hsv ▸ hsu ▸ hsame)
  · intro j l v' w' hj hl hev hew
    obtain ⟨v, hv, _, _, _, hev', _⟩ := hback j v' hj
    obtain ⟨u, hu, _, _, _, heu', _⟩ := hback l w' hl
    exact h.alone j l v u hv hu (hev' hev) (heu' hew)
  · intro i s hs hcur v' hv' he
    obtain ⟨v, hv, hsession, _, _, hold, _⟩ := hmem v' hv'
    rw [hsession]
    exact h.later i s hs hcur v hv (hold he)
  · intro v' hv' he s hs
    obtain ⟨v, hv, hsession, _, hstopped, hold, _⟩ := hmem v' hv'
    rw [hstopped]
    exact h.stop v hv (hold he) s (hsession ▸ hs)

/-- One session changes. -/
theorem Sound.session (h : Sound m) {f : Session O → Session O}
    (hlive : ∀ s, (f s).live = true → s.live = true)
    (hhalt : ∀ s, m.sessions[i]? = some s → (f s).halted = true → (f s).live = false)
    (hcur : ∀ s, m.sessions[i]? = some s → ∀ w ∈ m.workers, w.phase.busy = true →
      w.session = i → s.current_task = some w.task_id → (f s).current_task = some w.task_id)
    (hlater : ∀ s, m.sessions[i]? = some s → (f s).current_task ≠ none →
      s.current_task ≠ none ∨ ∀ w ∈ m.workers, w.phase.executing = true → i ≤ w.session)
    (hstop : ∀ s, m.sessions[i]? = some s → ∀ w ∈ m.workers, w.phase.executing = true →
      w.session = i → s.stop = (w.stopped || s.halted) →
        (f s).stop = (w.stopped || (f s).halted)) :
    Sound (m.onSession i f) := by
  have hget : ∀ j, (m.onSession i f).sessions[j]? =
      (m.sessions[j]?).map (fun s => if i = j then f s else s) := fun j => by
    rw [onSession, List.getElem?_modify]
    rfl
  have hback : ∀ (j : ℕ) (s' : Session O), (m.onSession i f).sessions[j]? = some s' →
      ∃ s, m.sessions[j]? = some s ∧ (if i = j then f s else s) = s' := fun j s' hj => by
    rw [hget] at hj
    exact Option.map_eq_some_iff.mp hj
  constructor
  · intro j s' hj hl
    obtain ⟨s, hs, rfl⟩ := hback j s' hj
    rw [onSession, List.length_modify]
    refine h.live j s hs ?_
    split_ifs at hl
    · exact hlive s hl
    · exact hl
  · intro j s' hj hh
    obtain ⟨s, hs, rfl⟩ := hback j s' hj
    split_ifs at hh ⊢ with hij
    · exact hhalt s (hij ▸ hs) hh
    · exact h.halted j s hs hh
  · intro w hw hbusy
    obtain ⟨s, hs, hcurrent⟩ := h.holds w hw hbusy
    refine ⟨if i = w.session then f s else s, by rw [hget, hs]; rfl, ?_⟩
    split_ifs with hij
    · exact hcur s (hij ▸ hs) w hw hbusy hij.symm hcurrent
    · exact hcurrent
  · exact h.own
  · exact h.alone
  · intro j s' hj hne w hw hexec
    obtain ⟨s, hs, rfl⟩ := hback j s' hj
    split_ifs at hne with hij
    · rcases hlater s (hij ▸ hs) hne with hold | hall
      · exact h.later j s hs hold w hw hexec
      · exact hij ▸ hall w hw hexec
    · exact h.later j s hs hne w hw hexec
  · intro w hw hexec s' hj
    obtain ⟨s, hs, rfl⟩ := hback _ s' hj
    split_ifs with hij
    · exact hstop s (hij ▸ hs) w hw hexec hij.symm (h.stop w hw hexec s hs)
    · exact h.stop w hw hexec s hs

theorem Sound.leave (h : Sound m) (halt : Bool) : Sound (m.leave i halt) := by
  refine h.session (fun s hl => ?_) (fun s hs hh => ?_) (fun s _ w _ _ _ hc => ?_)
    (fun s _ hc => .inl ?_) (fun s hs w _ _ _ hstop => ?_)
  · split_ifs at hl
    exact hl
  · split_ifs at hh ⊢ with hlive
    · rfl
    · simpa using hlive
  · split_ifs <;> exact hc
  · split_ifs at hc <;> exact hc
  · split_ifs with hlive
    · have hopen : s.halted = false := by
        cases hh : s.halted with
        | false => rfl
        | true =>
            rw [h.halted i s hs hh] at hlive
            cases hlive
      rw [hstop, hopen, Bool.or_false]
    · exact hstop

theorem Sound.dial (h : Sound m) {conn : ℕ} (hm : m.dial conn = some m') : Sound m' := by
  rw [Machine.dial] at hm
  split_ifs at hm with hall
  obtain rfl := Option.some.inj hm
  rw [List.all_eq_true] at hall
  have hold : ∀ (j : ℕ) (s : Session O),
      (m.sessions ++ [{ conn, up := [.hello m.hello] }])[j]? = some s →
      m.sessions[j]? = some s ∨
        j = m.sessions.length ∧ s = { conn, up := [.hello m.hello] } := fun j s hj => by
    rcases lt_or_ge j m.sessions.length with hlt | hge
    · rw [List.getElem?_append_left hlt] at hj
      exact .inl hj
    · have hlen := (List.getElem?_eq_some_iff.mp hj).1
      rw [List.length_append, List.length_singleton] at hlen
      obtain rfl : j = m.sessions.length := by omega
      rw [List.getElem?_concat_length] at hj
      exact .inr ⟨rfl, (Option.some.inj hj).symm⟩
  have hlast : ∀ w ∈ m.workers, w.phase.busy = true → w.session < m.sessions.length := by
    intro w hw hbusy
    obtain ⟨s, hs, _⟩ := h.holds w hw hbusy
    exact (List.getElem?_eq_some_iff.mp hs).1
  constructor
  · intro j s hj hl
    rcases hold j s hj with hs | ⟨rfl, rfl⟩
    · have hdead := hall s (List.mem_of_getElem? hs)
      rw [hl] at hdead
      cases hdead
    · simp
  · intro j s hj hh
    rcases hold j s hj with hs | ⟨rfl, rfl⟩
    · exact h.halted j s hs hh
    · cases hh
  · intro w hw hbusy
    obtain ⟨s, hs, hcur⟩ := h.holds w hw hbusy
    refine ⟨s, ?_, hcur⟩
    rw [List.getElem?_append_left (List.getElem?_eq_some_iff.mp hs).1]
    exact hs
  · exact h.own
  · exact h.alone
  · intro j s hj hne w hw hexec
    rcases hold j s hj with hs | ⟨rfl, rfl⟩
    · exact h.later j s hs hne w hw hexec
    · exact absurd rfl hne
  · intro w hw hexec s hj
    rcases hold _ s hj with hs | ⟨heq, rfl⟩
    · exact h.stop w hw hexec s hs
    · exact absurd heq (hlast w hw (Phase.busy_of_executing hexec)).ne

/-- The task is accepted while nothing is executed. -/
theorem Sound.hire (h : Sound m) {s : Session O} (hs : m.sessions[i]? = some s)
    (hlive : s.live = true) (hfree : s.current_task = none)
    (hquiet : ∀ w ∈ m.workers, w.phase.executing = false) (task_id task : String) (options : O) :
    Sound { m.onSession i (fun s => { s with current_task := some task_id, stop := false }) with
      workers := m.workers ++ [{ session := i, task_id, task, options }] } := by
  have hopen : s.halted = false := by
    cases hh : s.halted with
    | false => rfl
    | true => exact nomatch (h.halted i s hs hh).symm.trans hlive
  have hsession : Sound (m.onSession i
      (fun s => { s with current_task := some task_id, stop := false })) := by
    refine h.session (fun s hl => hl) (fun s' hs' hh => h.halted i s' hs' hh)
      (fun s' hs' w _ _ _ hc => ?_) (fun _ _ _ => .inr fun w hw hexec => ?_)
      (fun _ _ w hw hexec _ _ => ?_)
    · obtain rfl := Option.some.inj (hs.symm.trans hs')
      exact nomatch hfree.symm.trans hc
    · exact nomatch (hquiet w hw).symm.trans hexec
    · exact nomatch (hquiet w hw).symm.trans hexec
  have hget : (m.onSession i (fun s => { s with
      current_task := some task_id, stop := false })).sessions[i]? =
      some { s with current_task := some task_id, stop := false } := by
    rw [onSession, List.getElem?_modify, hs]
    simp
  set n := m.onSession i (fun s => { s with current_task := some task_id, stop := false })
  have hworkers : ∀ (j : ℕ) (v : Worker O),
      (m.workers ++ [{ session := i, task_id, task, options }])[j]? = some v →
      m.workers[j]? = some v ∨
        j = m.workers.length ∧ v = { session := i, task_id, task, options } := fun j v hj => by
    rcases lt_or_ge j m.workers.length with hlt | hge
    · rw [List.getElem?_append_left hlt] at hj
      exact .inl hj
    · have hlen := (List.getElem?_eq_some_iff.mp hj).1
      rw [List.length_append, List.length_singleton] at hlen
      obtain rfl : j = m.workers.length := by omega
      rw [List.getElem?_concat_length] at hj
      exact .inr ⟨rfl, (Option.some.inj hj).symm⟩
  have hmem : ∀ v ∈ m.workers ++ [({ session := i, task_id, task, options } : Worker O)],
      v ∈ m.workers ∨ v = { session := i, task_id, task, options } := fun v hv => by
    rw [List.mem_append, List.mem_singleton] at hv
    exact hv
  -- no worker of the session is busy, since its node is free
  have hidle : ∀ v ∈ m.workers, v.phase.busy = true → v.session ≠ i := by
    rintro v hv hbusy rfl
    obtain ⟨s', hs', hc⟩ := h.holds v hv hbusy
    obtain rfl := Option.some.inj (hs.symm.trans hs')
    exact nomatch hfree.symm.trans hc
  constructor
  · exact hsession.live
  · exact hsession.halted
  · intro w hw hbusy
    rcases hmem w hw with hold | rfl
    · exact hsession.holds w hold hbusy
    · exact ⟨_, hget, rfl⟩
  · intro j l v w hj hl hbv hbw hsame
    rcases hworkers j v hj with hv | ⟨rfl, rfl⟩ <;> rcases hworkers l w hl with hw | ⟨rfl, rfl⟩
    · exact h.own j l v w hv hw hbv hbw hsame
    · exact absurd hsame (hidle v (List.mem_of_getElem? hv) hbv)
    · exact absurd hsame.symm (hidle w (List.mem_of_getElem? hw) hbw)
    · rfl
  · intro j l v w hj hl hev hew
    rcases hworkers j v hj with hv | ⟨rfl, rfl⟩
    · exact nomatch (hquiet v (List.mem_of_getElem? hv)).symm.trans hev
    · rcases hworkers l w hl with hw | ⟨rfl, rfl⟩
      · exact nomatch (hquiet w (List.mem_of_getElem? hw)).symm.trans hew
      · rfl
  · intro j s' hj hne w hw hexec
    rcases hmem w hw with hold | rfl
    · exact nomatch (hquiet w hold).symm.trans hexec
    · have hlast := h.live i s hs hlive
      have hlt := (List.getElem?_eq_some_iff.mp hj).1
      rw [show n.sessions.length = m.sessions.length from List.length_modify ..] at hlt
      show j ≤ i
      omega
  · intro w hw hexec s' hj
    rcases hmem w hw with hold | rfl
    · exact nomatch (hquiet w hold).symm.trans hexec
    · obtain rfl := Option.some.inj (hget.symm.trans hj)
      exact hopen.symm

/-- What is executed while a session holds a task is executed for that session. -/
theorem Sound.here (h : Sound m) {s : Session O} (hs : m.sessions[i]? = some s)
    (hlive : s.live = true) {t : String} (hcur : s.current_task = some t) {w : Worker O}
    (hw : w ∈ m.workers) (hexec : w.phase.executing = true) : w.session = i ∧ w.task_id = t := by
  obtain ⟨s', hs', hc⟩ := h.holds w hw (Phase.busy_of_executing hexec)
  have hle := h.later i s hs (by rw [hcur]; nofun) w hw hexec
  have hlast := h.live i s hs hlive
  have hlt := (List.getElem?_eq_some_iff.mp hs').1
  have heq : w.session = i := by omega
  refine ⟨heq, ?_⟩
  rw [heq] at hs'
  obtain rfl := Option.some.inj (hs.symm.trans hs')
  exact Option.some.inj (hc.symm.trans hcur)

theorem Sound.stopped (h : Sound m) {s : Session O} (hs : m.sessions[i]? = some s)
    (hlive : s.live = true) {t : String} (hcur : s.current_task = some t) :
    Sound ((m.noted t).onSession i (fun s => { s with stop := true })) := by
  have hmem : ∀ v' ∈ (m.noted t).workers, ∃ v ∈ m.workers, v'.session = v.session ∧
      v'.task_id = v.task_id ∧ v'.phase = v.phase ∧
      (v.task_id = t → v.phase.executing = true → v'.stopped = true) := by
    intro v' hv'
    obtain ⟨v, hv, rfl⟩ := List.mem_map.mp hv'
    refine ⟨v, hv, ?_⟩
    split_ifs with hif
    · exact ⟨rfl, rfl, rfl, fun _ _ => rfl⟩
    · exact ⟨rfl, rfl, rfl, fun ht he => absurd ⟨ht, he⟩ hif⟩
  have hindex : ∀ (j : ℕ) (v' : Worker O), (m.noted t).workers[j]? = some v' →
      ∃ v, m.workers[j]? = some v ∧ v'.session = v.session ∧ v'.phase = v.phase := by
    intro j v' hj
    rw [noted, List.getElem?_map] at hj
    obtain ⟨v, hv, rfl⟩ := Option.map_eq_some_iff.mp hj
    refine ⟨v, hv, ?_⟩
    split_ifs <;> exact ⟨rfl, rfl⟩
  have hget : ∀ j, (m.onSession i (fun s => { s with stop := true })).sessions[j]? =
      (m.sessions[j]?).map (fun s => if i = j then { s with stop := true } else s) := fun j => by
    rw [onSession, List.getElem?_modify]
    rfl
  have hback : ∀ (j : ℕ) (s' : Session O),
      (m.onSession i (fun s => { s with stop := true })).sessions[j]? = some s' →
      ∃ s, m.sessions[j]? = some s ∧ s'.live = s.live ∧ s'.halted = s.halted ∧
        s'.current_task = s.current_task ∧ (i = j → s'.stop = true) := fun j s' hj => by
    rw [hget] at hj
    obtain ⟨s, hs, rfl⟩ := Option.map_eq_some_iff.mp hj
    refine ⟨s, hs, ?_⟩
    split_ifs with hij
    · exact ⟨rfl, rfl, rfl, fun _ => rfl⟩
    · exact ⟨rfl, rfl, rfl, fun heq => absurd heq hij⟩
  constructor
  · intro j s' hj hl
    obtain ⟨s₁, hs₁, hlive', _⟩ := hback j s' hj
    rw [onSession, List.length_modify]
    exact h.live j s₁ hs₁ (hlive' ▸ hl)
  · intro j s' hj hh
    obtain ⟨s₁, hs₁, hlive', hhalt, _⟩ := hback j s' hj
    exact hlive' ▸ h.halted j s₁ hs₁ (hhalt ▸ hh)
  · intro v' hv' hbusy
    obtain ⟨v, hv, hsession, htask, hphase, _⟩ := hmem v' hv'
    obtain ⟨s₁, hs₁, hc⟩ := h.holds v hv (hphase ▸ hbusy)
    refine ⟨if i = v.session then { s₁ with stop := true } else s₁, ?_, ?_⟩
    · rw [hsession]
      show (m.onSession i _).sessions[v.session]? = _
      rw [hget, hs₁]
      rfl
    · rw [htask, ← hc]
      split_ifs <;> rfl
  · intro j l v' w' hj hl hbv hbw hsame
    obtain ⟨v, hv, hsv, hpv⟩ := hindex j v' hj
    obtain ⟨w, hw, hsw, hpw⟩ := hindex l w' hl
    exact h.own j l v w hv hw (hpv ▸ hbv) (hpw ▸ hbw) (hsv ▸ hsw ▸ hsame)
  · intro j l v' w' hj hl hev hew
    obtain ⟨v, hv, _, hpv⟩ := hindex j v' hj
    obtain ⟨w, hw, _, hpw⟩ := hindex l w' hl
    exact h.alone j l v w hv hw (hpv ▸ hev) (hpw ▸ hew)
  · intro j s' hj hne v' hv' hexec
    obtain ⟨s₁, hs₁, _, _, hc, _⟩ := hback j s' hj
    obtain ⟨v, hv, hsession, _, hphase, _⟩ := hmem v' hv'
    rw [hsession]
    exact h.later j s₁ hs₁ (hc ▸ hne) v hv (hphase ▸ hexec)
  · intro v' hv' hexec s' hj
    obtain ⟨v, hv, hsession, _, hphase, hstopped⟩ := hmem v' hv'
    have hexec' : v.phase.executing = true := hphase ▸ hexec
    obtain ⟨hi, ht⟩ := h.here hs hlive hcur hv hexec'
    obtain ⟨_, _, _, _, _, hstop⟩ := hback _ s' hj
    rw [hstopped ht hexec', hstop (hi.symm.trans hsession.symm), Bool.true_or]

theorem Sound.read (h : Sound m) (halone : m.alone i = true) (hm : m.read i = some m') :
    Sound m' := by
  rw [Machine.read] at hm
  cases hs : m.sessions[i]? with
  | none =>
      rw [hs] at hm
      cases hm
  | some s =>
      rw [hs] at hm
      simp only at hm
      cases hlive : s.live with
      | false =>
          rw [hlive] at hm
          cases hm
      | true =>
          cases hdown : s.down with
          | nil =>
              rw [hlive, hdown] at hm
              cases hm
          | cons msg rest =>
              rw [hlive, hdown] at hm
              obtain rfl := Option.some.inj hm
              have hn : Sound (m.onSession i (fun s => { s with down := rest })) :=
                h.onStreams (fun _ => rfl)
              have hget : (m.onSession i (fun s => { s with down := rest })).sessions[i]? =
                  some { s with down := rest } := by
                rw [onSession, List.getElem?_modify, hs]
                simp
              cases msg with
              | assign task_id task options =>
                  rw [handle, start]
                  cases hcur : s.current_task with
                  | some t => exact hn.send _
                  | none =>
                      have hquiet : ∀ w ∈ m.workers, w.phase.executing = false := by
                        rw [Machine.alone, hs] at halone
                        simp only [hcur, hdown, List.all_eq_true, Bool.not_eq_true'] at halone
                        exact halone
                      exact hn.hire hget hlive hcur hquiet task_id task options
              | stop task_id =>
                  rw [handle, request_stop]
                  cases hcur : s.current_task with
                  | none => exact hn
                  | some t =>
                      simp only
                      split_ifs
                      · exact hn
                      · exact hn.stopped hget hlive hcur

theorem Sound.work (h : Sound m) {a : Work} (hm : m.work k a = some m') : Sound m' := by
  rw [Machine.work] at hm
  cases hw : m.workers[k]? with
  | none =>
      rw [hw] at hm
      cases hm
  | some w =>
      rw [hw] at hm
      obtain ⟨session, task_id, task, options, phase, stopped⟩ := w
      cases phase with
      | starting =>
          cases a with
          | go =>
              obtain rfl := Option.some.inj hm
              exact (h.send _).setPhase hw (fun _ => rfl) (fun _ => rfl)
          | die =>
              obtain rfl := Option.some.inj hm
              exact h.setPhase hw nofun nofun
          | _ => cases hm
      | running =>
          cases a with
          | progress step detail =>
              obtain rfl := Option.some.inj hm
              exact h.send _
          | finish code summary =>
              obtain rfl := Option.some.inj hm
              exact h.setPhase hw nofun (fun _ => rfl)
          | _ => cases hm
      | returned code summary =>
          cases a with
          | clear =>
              obtain rfl := Option.some.inj hm
              have hn : Sound (m.setPhase k
                  { session, task_id, task, options, phase := .returned code summary, stopped }
                  (.cleared code summary)) := h.setPhase hw nofun nofun
              -- the worker that held the task was this one
              have hfree : ∀ v ∈ (m.setPhase k
                  { session, task_id, task, options, phase := .returned code summary, stopped }
                  (.cleared code summary)).workers, v.phase.busy = true → v.session ≠ session := by
                intro v hv hbusy hsame
                obtain ⟨j, hj⟩ := List.mem_iff_getElem?.mp hv
                rw [Machine.setPhase, List.getElem?_set] at hj
                split_ifs at hj with hkj hlt
                · obtain rfl := Option.some.inj hj
                  cases hbusy
                · exact hkj (h.own j k v _ hj hw hbusy rfl hsame).symm
              exact hn.session (fun s hl => hl) (fun s hs hh => hn.halted _ s hs hh)
                (fun s _ v hv hbusy hsame _ => absurd hsame (hfree v hv hbusy))
                (fun s _ hne => absurd rfl hne)
                (fun s _ v hv hexec hsame _ =>
                  absurd hsame (hfree v hv (Phase.busy_of_executing hexec)))
          | _ => cases hm
      | cleared code summary =>
          cases a with
          | report =>
              obtain rfl := Option.some.inj hm
              exact (h.send _).setPhase hw nofun nofun
          | die =>
              obtain rfl := Option.some.inj hm
              exact h.setPhase hw nofun nofun
          | _ => cases hm
      | reported =>
          cases a with
          | idle =>
              obtain rfl := Option.some.inj hm
              exact (h.send _).setPhase hw nofun nofun
          | die =>
              obtain rfl := Option.some.inj hm
              exact h.setPhase hw nofun nofun
          | _ => cases hm
      | gone => cases hm

end

end Machine

end Secdogie.Fleet
