/-
# `Secdogie.Fleet.Coordinator` — which task runs on which node

The scheduling brain of a fleet.  Its state is three indexes: the tasks with
their life cycle, the nodes with the assignment each holds, and the order in
which queued tasks are dispatched.  Every outbound message goes through a
`send` the caller supplies, and that may act on the coordinator in turn: the
server's drops a node that cannot be reached.

`Consistent` ties the three indexes together.  Each operation keeps it, with
one exception: a result is believed whoever sends it.  `scheduled` says what
holds in every run whose results do not end a queued task and, unless they
come from the node that runs the task, only finish it.
-/
import Secdogie.Lib.OrderedDict

namespace Secdogie.Fleet

inductive TaskState where
  | QUEUED | RUNNING | PAUSED | DONE | FAILED
  deriving DecidableEq, Repr

structure Task (O : Type) where
  task_id : String
  task : String
  options : O
  priority : ℤ
  state : TaskState := .QUEUED
  node_id : Option String := none
  attempts : ℕ := 0
  tried_nodes : List String := []
  code : Option ℤ := none
  summary : String := ""
  step : ℤ := 0
  detail : String := ""
  pause_reason : String := ""

structure Node where
  node_id : String
  label : String := ""
  screen : Option (ℤ × ℤ) := none
  capabilities : List String := []
  task_id : Option String := none

/-- `Node.busy` -/
def Node.busy (n : Node) : Bool := n.task_id.isSome

structure Hello where
  node_id : String
  label : String := ""
  screen : Option (ℤ × ℤ) := none
  capabilities : List String := []

structure Status where
  node_id : String
  task_id : Option String := none
  step : ℤ := 0
  detail : String := ""

structure Result where
  node_id : String
  task_id : String
  code : ℤ
  summary : String := ""

/-- What the coordinator sends. -/
inductive Message (O : Type) where
  | assign (task_id task : String) (options : O)
  | stop (task_id : Option String)

/-- `world` is what lies behind the caller's `send`. -/
structure Coordinator (W O : Type) where
  max_concurrent : Option ℤ := none
  max_attempts : ℤ := 2
  nodes : OrderedDict String Node := .empty
  tasks : OrderedDict String (Task O) := .empty
  order : List String := []
  next_id : ℕ := 1
  world : W

/-- `_TERMINAL_CODES` -/
def terminal_code (code : ℤ) : Bool := code = 0 || code = 2 || code = 3 || code = 5

namespace Coordinator

variable {W O : Type}

/-! ## The operations -/

/-- `self.tasks[tid] = t`, or an assignment to fields of the task stored there -/
def put (c : Coordinator W O) (tid : String) (t : Task O) : Coordinator W O :=
  { c with tasks := c.tasks.set tid t }

def putNode (c : Coordinator W O) (n : Node) : Coordinator W O :=
  { c with nodes := c.nodes.set n.node_id n }

def priority_of (c : Coordinator W O) (tid : String) : ℤ :=
  match c.tasks.get tid with
  | some t => t.priority
  | none => 0

/-- The list after `insert` at the first place of lower priority. -/
def insert_at (prio : String → ℤ) (tid : String) : List String → List String
  | [] => [tid]
  | e :: es => if prio e < prio tid then tid :: e :: es else e :: insert_at prio tid es

/-- `_enqueue` -/
def enqueue (c : Coordinator W O) (tid : String) : Coordinator W O :=
  if tid ∈ c.order then c else { c with order := insert_at c.priority_of tid c.order }

/-- `running_count` -/
def running_count (c : Coordinator W O) : ℕ := c.tasks.values.countP (fun t => t.state = .RUNNING)

/-- `queued_count` -/
def queued_count (c : Coordinator W O) : ℕ := c.order.length

/-- `is_settled` -/
def is_settled (c : Coordinator W O) : Bool := c.running_count = 0 && c.queued_count = 0

/-- `_idle_node`: the first idle node that has not had a go at the task, or the
first idle one. -/
def idle_node (c : Coordinator W O) (t : Task O) : Option Node :=
  let idle := c.nodes.values.filter (fun n => !n.busy)
  let fresh := idle.filter (fun n => n.node_id ∉ t.tried_nodes)
  (fresh ++ idle).head?

/-- `_requeue` -/
def requeue (c : Coordinator W O) (tid reason : String) : Coordinator W O :=
  match c.tasks.get tid with
  | none => c
  | some t =>
      if t.state = .DONE ∨ t.state = .FAILED ∨ t.state = .PAUSED then c
      else if c.max_attempts ≤ t.attempts then
        c.put tid { t with state := .FAILED, node_id := none, pause_reason := "", detail := reason }
      else
        (c.put tid { t with
          state := .QUEUED, node_id := none, detail := reason, pause_reason := "" }).enqueue tid

/-- `submit`: the id of the task, or the id that exists already (a `ValueError`). -/
def submit (c : Coordinator W O) (task : String) (options : O) (task_id : Option String)
    (priority : ℤ) : Except String String × Coordinator W O :=
  let fresh := task_id = none ∨ task_id = some ""
  let tid := if fresh then "t" ++ toString c.next_id else task_id.getD ""
  let c := { c with next_id := if fresh then c.next_id + 1 else c.next_id }
  match c.tasks.get tid with
  | some _ => (.error tid, c)
  | none => (.ok tid, (c.put tid { task_id := tid, task, options, priority }).enqueue tid)

/-- `resume_task` -/
def resume_task (c : Coordinator W O) (tid : String) : Bool × Coordinator W O :=
  match c.tasks.get tid with
  | none => (false, c)
  | some t =>
      if t.state ≠ .PAUSED then (false, c)
      else (true, (c.put tid { t with
        state := .QUEUED, pause_reason := "", node_id := none }).enqueue tid)

/-- `on_hello`: a node that had an assignment has forgotten it. -/
def on_hello (c : Coordinator W O) (h : Hello) : Coordinator W O :=
  let c :=
    match (c.nodes.get h.node_id).bind Node.task_id with
    | some tid => c.requeue tid "node reconnected mid-task"
    | none => c
  c.putNode { node_id := h.node_id, label := h.label, screen := h.screen,
              capabilities := h.capabilities }

/-- `on_status` -/
def on_status (c : Coordinator W O) (s : Status) : Coordinator W O :=
  match c.nodes.get s.node_id with
  | none => c
  | some _ =>
      match s.task_id with
      | none => c
      | some tid =>
          if tid = "" then c
          else
            match c.tasks.get tid with
            | none => c
            | some t => c.put tid { t with step := s.step, detail := s.detail }

/-- The node that sends a result no longer holds the task it is about. -/
def release (c : Coordinator W O) (nid tid : String) : Coordinator W O :=
  match c.nodes.get nid with
  | none => c
  | some n => if n.task_id = some tid then c.putNode { n with task_id := none } else c

/-- What becomes of the task a result is about. -/
def conclude (c : Coordinator W O) (r : Result) : Coordinator W O :=
  match c.tasks.get r.task_id with
  | none => c
  | some t =>
      if t.state = .DONE ∨ t.state = .FAILED ∨ t.state = .PAUSED then c
      else
        let t := { t with code := some r.code, summary := r.summary, node_id := none }
        -- a stop the operator asked for, or a crash after one
        if t.pause_reason ≠ "" ∧ (r.code = 5 ∨ terminal_code r.code = false) then
          c.put r.task_id { t with state := .PAUSED, detail := "paused (" ++ t.pause_reason ++ ")" }
        else if terminal_code r.code then
          c.put r.task_id { t with state := .DONE, pause_reason := "" }
        else if c.max_attempts ≤ t.attempts then
          c.put r.task_id { t with state := .FAILED, pause_reason := "" }
        else (c.put r.task_id t).requeue r.task_id ("exit code " ++ toString r.code)

/-- `on_result` -/
def on_result (c : Coordinator W O) (r : Result) : Coordinator W O :=
  (c.release r.node_id r.task_id).conclude r

/-- `on_node_lost` -/
def on_node_lost (c : Coordinator W O) (nid : String) : Coordinator W O :=
  let held := (c.nodes.get nid).bind Node.task_id
  let c := { c with nodes := c.nodes.pop nid }
  match held with
  | some tid => c.requeue tid "node lost"
  | none => c

section

variable (send : Coordinator W O → String → Message O → Coordinator W O)

/-- `pause_task` -/
def pause_task (c : Coordinator W O) (tid reason : String) : Bool × Coordinator W O :=
  match c.tasks.get tid with
  | none => (false, c)
  | some t =>
      match t.state with
      | .DONE | .FAILED => (false, c)
      | .PAUSED =>
          (true, c.put tid { t with
            pause_reason := if reason = "" then t.pause_reason else reason })
      | .QUEUED =>
          (true, { c.put tid { t with state := .PAUSED, pause_reason := reason } with
            order := c.order.erase tid })
      | .RUNNING =>
          match t.node_id with
          | none => (false, c)
          | some nid =>
              let reason := if reason = "" then "operator" else reason
              (true, send (c.put tid { t with
                pause_reason := reason, detail := "pause requested (" ++ reason ++ ")" })
                nid (.stop (some tid)))

/-- One task of `pause_below_priority`. -/
def pause_one (min_priority : ℤ) (reason : String) (acc : List String × Coordinator W O)
    (tid : String) : List String × Coordinator W O :=
  match acc.2.tasks.get tid with
  | none => acc
  | some t =>
      if t.priority ≥ min_priority then acc
      else if t.state = .QUEUED ∨ t.state = .RUNNING then
        let r := acc.2.pause_task send tid reason
        (if r.1 then acc.1 ++ [tid] else acc.1, r.2)
      else acc

/-- `pause_below_priority` -/
def pause_below_priority (c : Coordinator W O) (min_priority : ℤ) (reason : String) :
    List String × Coordinator W O :=
  c.tasks.keys.foldl (pause_one send min_priority reason) ([], c)

/-- `stop_task` -/
def stop_task (c : Coordinator W O) (tid : String) : Bool × Coordinator W O :=
  match c.tasks.get tid with
  | none => (false, c)
  | some t =>
      if t.state ≠ .RUNNING then (false, c)
      else
        match t.node_id with
        | none => (false, c)
        | some nid => (true, send c nid (.stop (some tid)))

/-- The task goes to the node, before the node is told. -/
def assigned (c : Coordinator W O) (tid : String) (t : Task O) (n : Node) : Coordinator W O :=
  { (c.put tid { t with
      state := .RUNNING, node_id := some n.node_id, attempts := t.attempts + 1,
      tried_nodes := n.node_id :: t.tried_nodes, pause_reason := "" }).putNode
      { n with task_id := some tid } with
    order := c.order.erase tid }

def at_cap (c : Coordinator W O) : Bool :=
  match c.max_concurrent with
  | none => false
  | some cap => cap ≤ c.running_count

/-- The loop of `pump`, over the order as it stood when the loop began. -/
def pump_loop : List String → Coordinator W O → ℕ → ℕ × Coordinator W O
  | [], c, dispatched => (dispatched, c)
  | tid :: rest, c, dispatched =>
      match c.tasks.get tid with
      | none => pump_loop rest c dispatched
      | some t =>
          if t.state ≠ .QUEUED then pump_loop rest c dispatched
          else if c.at_cap then (dispatched, c)
          else
            match c.idle_node t with
            | none => (dispatched, c)
            | some n =>
                pump_loop rest
                  (send (c.assigned tid t n) n.node_id (.assign tid t.task t.options))
                  (dispatched + 1)

/-- `pump` -/
def pump (c : Coordinator W O) : ℕ × Coordinator W O := pump_loop send c.order c 0

end

end Coordinator

end Secdogie.Fleet
