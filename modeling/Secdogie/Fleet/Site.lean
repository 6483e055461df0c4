/-
# `Secdogie.Fleet.Site` — a coordinator and one of its desktops

The server and the machine with the streams of each connection between them.
The coordinator is free to do what its operator and the other nodes make it do;
connections are closed by either side at any moment, and the node dials again.

`one_desktop` is what the machine and the coordinator promise each other as
long as no session accepts a task while an earlier one's has not returned.
-/
import Secdogie.Fleet.Machine

namespace Secdogie.Fleet

structure Site (O : Type) where
  server : Server O
  machine : Machine O

inductive SiteEvent (O : Type) where
  /-- a call of the operator, or a message of another node -/
  | server (event : Event O)
  /-- the coordinator reads the next report of a session -/
  | deliver (i : ℕ)
  /-- the coordinator finds the connection of a session closed -/
  | lost (i : ℕ)
  | dial (conn : ℕ)
  | read (i : ℕ)
  | leave (i : ℕ) (halt : Bool)
  | work (k : ℕ) (a : Work)

namespace Site

open Coordinator

variable {O : Type}

/-- The connection that messages to the node are written to in a step of the
server. -/
def route (s : Server O) (e : Event O) (nid : String) : Option ℕ :=
  match e with
  | .hello conn h => if h.node_id = nid then some conn else s.world.conns.get nid
  | .closed conn =>
      if s.world.named.get conn = some nid ∧ s.world.conns.get nid = some conn then none
      else s.world.conns.get nid
  | _ => s.world.conns.get nid

/-- Messages are written to the connection. -/
def receive (m : Machine O) (conn : Option ℕ) (msgs : List (Message O)) : Machine O :=
  { m with sessions := m.sessions.map (fun s =>
      if conn = some s.conn then { s with down := s.down ++ msgs } else s) }

section

variable (fails : ℕ → Bool)

/-- The server takes a step, and what it tells the node is written. -/
def after (site : Site O) (e : Event O) : Site O :=
  let server := Server.step fails site.server e
  let nid := site.machine.hello.node_id
  let told := server.world.told.drop site.server.world.told.length
  { server
    machine := receive site.machine (route site.server e nid)
      ((told.filter (fun m => m.1 = nid)).map Prod.snd) }

/-- The event that a report is for the server. -/
def reported (conn : ℕ) : Report → Event O
  | .hello h => .hello conn h
  | .status st => .status st
  | .result r => .result r

def step (site : Site O) : SiteEvent O → Option (Site O)
  | .server e => some (site.after fails e)
  | .deliver i =>
      match site.machine.sessions[i]? with
      | none => none
      | some s =>
          match s.served, s.up with
          | true, r :: rest =>
              some (({ site with machine :=
                site.machine.onSession i (fun s => { s with up := rest }) } : Site O).after fails
                  (reported s.conn r))
          | _, _ => none
  | .lost i =>
      match site.machine.sessions[i]? with
      | none => none
      | some s =>
          if s.served then
            some (({ site with machine :=
              site.machine.onSession i (fun s => { s with served := false }) } : Site O).after fails
                (.closed s.conn))
          else none
  | .dial conn => (site.machine.dial conn).map (fun machine => { site with machine })
  | .read i => (site.machine.read i).map (fun machine => { site with machine })
  | .leave i halt => some { site with machine := site.machine.leave i halt }
  | .work k a => (site.machine.work k a).map (fun machine => { site with machine })

/-- The sites that events lead to, each of them as `ok` asks. -/
inductive Steps (ok : Site O → SiteEvent O → Prop) : Site O → Site O → Prop
  | refl (site : Site O) : Steps ok site site
  | tail {a b c : Site O} (e : SiteEvent O) (h : Steps ok a b) (hok : ok b e)
      (hstep : b.step fails e = some c) : Steps ok a c

end

def start (max_concurrent : Option ℤ) (max_attempts : ℤ) (hello : Hello) : Site O :=
  ⟨Server.start max_concurrent max_attempts, { hello }⟩

/-- No session accepts a task while a worker of an earlier one has not returned. -/
def Meets (site : Site O) : SiteEvent O → Prop
  | .read i => site.machine.alone i = true
  | _ => True

instance (site : Site O) (e : SiteEvent O) : Decidable (Meets site e) :=
  match e with
  | .read i => inferInstanceAs (Decidable (site.machine.alone i = true))
  | .server _ | .deliver _ | .lost _ | .dial _ | .leave _ _ | .work _ _ => isTrue trivial

/-- The operator does not resume the task. -/
def NotResumed (tid : String) (_ : Site O) : SiteEvent O → Prop
  | .server (.resume_task x) => x ≠ tid
  | _ => True

section

variable {fails : ℕ → Bool} {site site' : Site O}

theorem sound_receive {m : Machine O} (h : m.Sound) (conn : Option ℕ) (msgs : List (Message O)) :
    (receive m conn msgs).Sound := by
  refine h.streams ?_ rfl
  rw [receive, List.map_map]
  refine List.map_congr_left (fun s _ => ?_)
  rw [Function.comp_apply]
  split_ifs <;> rfl

theorem sound_step {e : SiteEvent O} (h : site.machine.Sound) (hmeets : Meets site e)
    (hstep : site.step fails e = some site') : site'.machine.Sound := by
  cases e with
  | server e =>
      obtain rfl := Option.some.inj hstep
      exact sound_receive h _ _
  | deliver i =>
      rw [step] at hstep
      split at hstep
      · cases hstep
      · split at hstep
        · obtain rfl := Option.some.inj hstep
          refine sound_receive ?_ _ _
          exact h.onStreams (fun _ => rfl)
        · cases hstep
  | lost i =>
      rw [step] at hstep
      split at hstep
      · cases hstep
      · split_ifs at hstep
        obtain rfl := Option.some.inj hstep
        refine sound_receive ?_ _ _
        exact h.onStreams (fun _ => rfl)
  | dial conn =>
      obtain ⟨m, hm, rfl⟩ := Option.map_eq_some_iff.mp hstep
      exact h.dial hm
  | read i =>
      obtain ⟨m, hm, rfl⟩ := Option.map_eq_some_iff.mp hstep
      exact h.read hmeets hm
  | leave i halt =>
      obtain rfl := Option.some.inj hstep
      exact h.leave halt
  | work k a =>
      obtain ⟨m, hm, rfl⟩ := Option.map_eq_some_iff.mp hstep
      exact h.work hm

theorem sound_start (max_concurrent : Option ℤ) (max_attempts : ℤ) (hello : Hello) :
    (start (O := O) max_concurrent max_attempts hello).machine.Sound :=
  ⟨nofun, nofun, nofun, nofun, nofun, nofun, nofun⟩

theorem Steps.sound {s₀ : Site O} (h₀ : s₀.machine.Sound) (h : Steps fails Meets s₀ site) :
    site.machine.Sound := by
  induction h with
  | refl => exact h₀
  | tail e _ hok hstep ih => exact sound_step ih hok hstep

theorem asksFor_reported (conn : ℕ) (r : Report) :
    Server.asksFor (reported (O := O) conn r) = [] := by
  cases r <;> rfl

/-- The tasks at rest stay as they are in a step that does not resume them. -/
theorem stays_step {e : SiteEvent O} {tid : String} {st : TaskState} (hnot : NotResumed tid site e)
    (hstep : site.step fails e = some site') (hs : site.server.state_of tid = some st)
    (hrest : st.rests = true) : site'.server.state_of tid = some st := by
  have hkeep : ∀ e : Event O, tid ∉ Server.asksFor e →
      (Server.step fails site.server e).state_of tid = some st :=
    fun e he => Server.stays_step e tid st hs hrest he
  cases e with
  | server e =>
      obtain rfl := Option.some.inj hstep
      refine hkeep e ?_
      cases e with
      | resume_task x => exact fun hmem => hnot (List.mem_singleton.mp hmem).symm
      | _ => exact List.not_mem_nil
  | deliver i =>
      rw [step] at hstep
      split at hstep
      · cases hstep
      · split at hstep
        · obtain rfl := Option.some.inj hstep
          refine hkeep (reported _ _) ?_
          rw [asksFor_reported]
          exact List.not_mem_nil
        · cases hstep
  | lost i =>
      rw [step] at hstep
      split at hstep
      · cases hstep
      · split_ifs at hstep
        obtain rfl := Option.some.inj hstep
        exact hkeep (.closed _) List.not_mem_nil
  | dial conn =>
      obtain ⟨m, hm, rfl⟩ := Option.map_eq_some_iff.mp hstep
      exact hs
  | read i =>
      obtain ⟨m, hm, rfl⟩ := Option.map_eq_some_iff.mp hstep
      exact hs
  | leave i halt =>
      obtain rfl := Option.some.inj hstep
      exact hs
  | work k a =>
      obtain ⟨m, hm, rfl⟩ := Option.map_eq_some_iff.mp hstep
      exact hs

theorem Steps.stays {tid : String} {st : TaskState} (h : Steps fails (NotResumed tid) site site')
    (hs : site.server.state_of tid = some st) (hrest : st.rests = true) :
    site'.server.state_of tid = some st := by
  induction h with
  | refl => exact hs
  | tail e _ hok hstep ih => exact stays_step hok hstep ih hrest

end

/-- What a site promises. -/
structure OneDesktop (fails : ℕ → Bool) (site : Site O) : Prop where
  /-- one call of `run_task` is executing at most -/
  one : ∀ (j k : ℕ) (v w : Worker O), site.machine.workers[j]? = some v →
    site.machine.workers[k]? = some w → v.phase = .running → w.phase = .running → j = k
  /-- `should_stop` is true for a task that a stop was accepted for, and for no
  other unless its session was ended from outside -/
  seen : ∀ w ∈ site.machine.workers, w.phase = .running → ∃ s,
    site.machine.sessions[w.session]? = some s ∧ s.stop = (w.stopped || s.halted)
  /-- a task that has ended or is paused keeps its state until it is resumed,
  whatever results arrive -/
  final : ∀ tid st, site.server.state_of tid = some st → st.rests = true →
    ∀ site', Steps fails (NotResumed tid) site site' → site'.server.state_of tid = some st

section

variable (fails : ℕ → Bool)

def run (site : Site O) (es : List (SiteEvent O)) : Option (Site O) := es.foldlM (step fails) site

def AllMeet (site : Site O) : List (SiteEvent O) → Prop
  | [] => True
  | e :: es => Meets site e ∧
      match site.step fails e with
      | none => True
      | some site' => AllMeet site' es

def decideAllMeet (site : Site O) : (es : List (SiteEvent O)) → Decidable (AllMeet fails site es)
  | [] => isTrue trivial
  | e :: es =>
      match h : site.step fails e with
      | none => decidable_of_iff (Meets site e) (by rw [AllMeet, h, and_true])
      | some site' =>
          have := decideAllMeet site' es
          decidable_of_iff (Meets site e ∧ AllMeet fails site' es) (by rw [AllMeet, h])

instance (site : Site O) (es : List (SiteEvent O)) : Decidable (AllMeet fails site es) :=
  decideAllMeet fails site es

end

theorem Steps.run {fails : ℕ → Bool} {s₀ : Site O} : ∀ (es : List (SiteEvent O))
    {site site' : Site O}, Steps fails Meets s₀ site → AllMeet fails site es →
      Site.run fails site es = some site' → Steps fails Meets s₀ site'
  | [], _, _, h, _, heq => Option.some.inj heq ▸ h
  | e :: es, site, _, h, hmeets, heq => by
      obtain ⟨t, ht, hrest⟩ := Option.bind_eq_some_iff.mp heq
      rw [AllMeet, ht] at hmeets
      exact Steps.run es (h.tail e hmeets.1 ht) hmeets.2 hrest

/-- A task that crashes once and is given to the same node again. -/
def retried : List (SiteEvent Unit) :=
  [.dial 1, .deliver 0, .server (.submit "x" () 0), .read 0, .work 0 .go,
    .work 0 (.finish 1 "crashed"), .work 0 .clear, .work 0 .report, .deliver 0, .deliver 0,
    .read 0, .work 1 .go, .work 1 (.finish 0 "done"), .work 1 .clear, .work 1 .report,
    .deliver 0, .deliver 0]

def desk : Site Unit := start none 2 { node_id := "n1" }

/-- The result that the coordinator reads next from a session. -/
def nextResult (site : Site O) (i : ℕ) : Option (String × ℤ) :=
  match (site.machine.sessions[i]?).bind (fun s => s.up.head?) with
  | some (.result r) => some (r.task_id, r.code)
  | _ => none

/-- The connection is closed while a task runs, and the node dials again. -/
def reconnected : List (SiteEvent Unit) :=
  [.dial 1, .deliver 0, .server (.submit "x" () 0), .read 0, .work 0 .go, .leave 0 false,
    .dial 2, .deliver 1, .read 1, .work 1 .go]

/-- The condition is needed: the second session's node knows nothing of the
worker of the first. -/
theorem two_at_once : (run (fun _ => false) desk reconnected).map (fun s =>
    s.machine.workers.map (fun w => (w.task_id, w.session, w.phase.executing))) =
      some [("t1", 0, true), ("t1", 1, true)] := by
  decide +kernel

end Site

end Secdogie.Fleet
