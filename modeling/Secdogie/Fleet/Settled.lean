/-
# `Secdogie.Fleet.Settled` — tasks that have come to rest

A task that is done, failed or paused is left alone by every operation but a
resumption: a late answer, the loss of its node, a second result.  `Stays` is
that statement for one operation, and `stays_step` for a step of the server,
with whatever the writes that fail set off.
-/
import Secdogie.Fleet.Server

namespace Secdogie.Fleet

def TaskState.rests : TaskState → Bool
  | .PAUSED | .DONE | .FAILED => true
  | .QUEUED | .RUNNING => false

namespace Coordinator

variable {W O : Type} {c c' c'' : Coordinator W O} {tid x nid reason : String} {t : Task O}
  {resumed : List String}

/-- From `c` to `c'` the tasks at rest stay as they are, but for those resumed. -/
def Stays (resumed : List String) (c c' : Coordinator W O) : Prop :=
  ∀ x st, c.state_of x = some st → st.rests = true → x ∉ resumed → c'.state_of x = some st

theorem Stays.refl (c : Coordinator W O) : Stays resumed c c := fun _ _ h _ _ => h

theorem Stays.trans (h : Stays resumed c c') (h' : Stays resumed c' c'') : Stays resumed c c'' :=
  fun x st hs hrest hx => h' x st (h x st hs hrest hx) hrest hx

theorem stays_tasks (ht : c'.tasks = c.tasks) : Stays resumed c c' := fun x st hs _ _ => by
  rw [state_of, ht]
  exact hs

theorem stays_putNode (n : Node) : Stays resumed c (c.putNode n) := stays_tasks rfl

theorem stays_enqueue : Stays resumed c (c.enqueue tid) := stays_tasks tasks_enqueue

/-- One task changes, that does not rest. -/
theorem stays_put {t' : Task O} (h : ∀ st, c.state_of tid = some st → st.rests = true →
    tid ∉ resumed → t'.state = st) : Stays resumed c (c.put tid t') := by
  intro x st hs hrest hx
  rw [state_of_put]
  split_ifs with heq
  · subst heq
    exact congrArg some (h st hs hrest hx)
  · exact hs

theorem stays_put_moving {t' : Task O} (hget : c.tasks.get tid = some t)
    (hmoves : t.state.rests = false) : Stays resumed c (c.put tid t') :=
  stays_put (fun st hs hrest _ => by
    rw [state_of_get hget] at hs
    obtain rfl := Option.some.inj hs
    rw [hmoves] at hrest
    cases hrest)

theorem stays_put_same {t' : Task O} (hget : c.tasks.get tid = some t)
    (hsame : t'.state = t.state) : Stays resumed c (c.put tid t') :=
  stays_put (fun st hs _ _ => by
    rw [state_of_get hget] at hs
    rw [hsame]
    exact Option.some.inj hs)

theorem rests_of_ne {st : TaskState} (h : ¬ (st = .DONE ∨ st = .FAILED ∨ st = .PAUSED)) :
    st.rests = false := by
  cases st with
  | DONE => exact absurd (.inl rfl) h
  | FAILED => exact absurd (.inr (.inl rfl)) h
  | PAUSED => exact absurd (.inr (.inr rfl)) h
  | QUEUED => rfl
  | RUNNING => rfl

theorem stays_requeue : Stays resumed c (c.requeue tid reason) := by
  rw [requeue]
  cases hget : c.tasks.get tid with
  | none => exact .refl c
  | some t =>
      simp only
      split_ifs with hend hmax
      · exact .refl c
      · exact stays_put_moving hget (rests_of_ne hend)
      · exact (stays_put_moving hget (rests_of_ne hend)).trans stays_enqueue

theorem stays_node_lost : Stays resumed c (c.on_node_lost nid) := by
  have hpop : Stays resumed c { c with nodes := c.nodes.pop nid } := stays_tasks rfl
  rw [on_node_lost]
  split
  · exact hpop.trans stays_requeue
  · exact hpop

theorem stays_hello {hello : Hello} : Stays resumed c (c.on_hello hello) := by
  rw [on_hello]
  split
  · exact stays_requeue.trans (stays_putNode _)
  · exact stays_putNode _

theorem stays_status {s : Status} : Stays resumed c (c.on_status s) := by
  rw [on_status]
  split
  · exact .refl c
  · split
    · exact .refl c
    · rename_i tid _
      split_ifs
      · exact .refl c
      · cases hget : c.tasks.get tid with
        | none => exact .refl c
        | some t => exact stays_put_same hget rfl

theorem stays_submit {task : String} {options : O} {task_id : Option String} {priority : ℤ} :
    Stays resumed c (c.submit task options task_id priority).2 := by
  have hid : ∀ k, Stays resumed c { c with next_id := k } := fun _ => stays_tasks rfl
  rw [submit]
  simp only
  split
  · exact hid _
  · rename_i hnone
    refine (hid _).trans (Stays.trans (stays_put (fun st hs _ _ => ?_)) stays_enqueue)
    rw [state_of, hnone] at hs
    cases hs

theorem stays_resume (hmem : tid ∈ resumed) : Stays resumed c (c.resume_task tid).2 := by
  rw [resume_task]
  cases hget : c.tasks.get tid with
  | none => exact .refl c
  | some t =>
      simp only
      split_ifs
      · exact .refl c
      · exact Stays.trans (stays_put (fun _ _ _ hx => absurd hmem hx)) stays_enqueue

theorem stays_release {nid tid : String} : Stays resumed c (c.release nid tid) := by
  rw [release]
  split
  · exact .refl c
  · split_ifs
    · exact stays_putNode _
    · exact .refl c

theorem stays_conclude {r : Result} : Stays resumed c (c.conclude r) := by
  rw [conclude]
  cases hget : c.tasks.get r.task_id with
  | none => exact .refl c
  | some t =>
      simp only
      split_ifs with hend
      · exact .refl c
      · exact stays_put_moving hget (rests_of_ne hend)
      · exact stays_put_moving hget (rests_of_ne hend)
      · exact stays_put_moving hget (rests_of_ne hend)
      · exact (stays_put_moving hget (rests_of_ne hend)).trans stays_requeue

theorem stays_result {r : Result} : Stays resumed c (c.on_result r) :=
  stays_release.trans stays_conclude

section

variable {send : Coordinator W O → String → Message O → Coordinator W O}
variable (hsend : ∀ c nid m, Stays (W := W) (O := O) resumed c (send c nid m))
include hsend

theorem stays_pause : Stays resumed c (c.pause_task send tid reason).2 := by
  rw [pause_task]
  cases hget : c.tasks.get tid with
  | none => exact .refl c
  | some t =>
      simp only
      cases hs : t.state with
      | DONE => exact .refl c
      | FAILED => exact .refl c
      | PAUSED => exact stays_put_same hget hs.symm
      | QUEUED =>
          have hput : Stays resumed c (c.put tid { t with state := .PAUSED, pause_reason := reason }) :=
            stays_put_moving hget (hs ▸ rfl)
          exact hput.trans (stays_tasks rfl)
      | RUNNING =>
          simp only
          cases t.node_id with
          | none => exact .refl c
          | some nid =>
              refine Stays.trans ?_ (hsend _ _ _)
              exact stays_put_moving hget (hs ▸ rfl)

theorem stays_pause_below {min_priority : ℤ} :
    Stays resumed c (c.pause_below_priority send min_priority reason).2 :=
  pause_below_rule (P := fun d => Stays resumed c d)
    (fun _ _ h => h.trans (stays_pause hsend)) (.refl c)

theorem stays_stop : Stays resumed c (c.stop_task send tid).2 := by
  rw [stop_task]
  split
  · exact .refl c
  · split_ifs
    · exact .refl c
    · split
      · exact .refl c
      · exact hsend _ _ _

theorem stays_pump : Stays resumed c (c.pump send).2 := by
  refine pump_rule (P := fun d => Stays resumed c d) (fun d x t n hd hget hq _ _ => ?_) (.refl c)
  have hput : Stays resumed d (d.assigned x t n) :=
    Stays.trans (stays_put_moving hget (hq ▸ rfl)) (stays_tasks rfl)
  exact (hd.trans hput).trans (hsend _ _ _)

end

end Coordinator

namespace Server

open Coordinator

variable {O : Type} {fails : ℕ → Bool} {s : Server O}

theorem stays_send_to {resumed : List String} (s : Server O) (nid : String) (m : Message O) :
    Stays resumed s (send_to fails s nid m) := by
  have hworld : ∀ (d : Server O) (w : World O), Stays resumed d { d with world := w } :=
    fun _ _ => stays_tasks rfl
  rw [send_to]
  simp only
  split
  · exact hworld _ _
  · split_ifs
    · exact ((hworld s _).trans stays_node_lost).trans (hworld _ _)
    · exact hworld _ _

theorem stays_pumped {resumed : List String} : Stays resumed s (pumped fails s) :=
  stays_pump stays_send_to

/-- The task that a call asks to resume. -/
def asksFor : Event O → List String
  | .resume_task tid => [tid]
  | _ => []

/-- A step of the server leaves the tasks at rest alone. -/
theorem stays_step (e : Event O) : Stays (asksFor e) s (step fails s e) := by
  have hworld : ∀ (d : Server O) (w : World O), Stays (asksFor e) d { d with world := w } :=
    fun _ _ => stays_tasks rfl
  cases e with
  | submit task options priority =>
      have hsub : Stays (asksFor (.submit task options priority)) s
          (s.submit task options none priority).2 := stays_submit
      rw [step]
      rcases hr : s.submit task options none priority with ⟨_ | _, s'⟩ <;> rw [hr] at hsub
      · exact hsub
      · exact hsub.trans stays_pumped
  | pause_task x reason => exact (stays_pause stays_send_to).trans stays_pumped
  | pause_below_priority p reason => exact (stays_pause_below stays_send_to).trans stays_pumped
  | resume_task x => exact (stays_resume (List.mem_singleton_self x)).trans stays_pumped
  | stop_task x => exact stays_stop stays_send_to
  | hello conn hello => exact ((hworld _ _).trans stays_hello).trans stays_pumped
  | status st => exact stays_status
  | result r => exact stays_result.trans stays_pumped
  | closed conn =>
      rw [step]
      split
      · exact .refl s
      · split_ifs
        · exact ((hworld _ _).trans stays_node_lost).trans stays_pumped
        · exact .refl s

end Server

end Secdogie.Fleet
