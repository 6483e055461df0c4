/-
# `Secdogie.Fleet.Server` — pauses over connections that fail

The server owns the connections and runs the coordinator under a lock.  A
message that cannot be written makes its node lost, in the middle of the
operation that sent it.

A pause of a running task is a mark on the task and a stop sent to its node.
`pauses_kept` says when the mark survives: as long as no node is lost, comes
back or cannot be told while a pause is pending for its task.
-/
import Secdogie.Fleet.Dispatch

namespace Secdogie.Fleet

/-- What the server holds beside the coordinator: the connection of each node,
the node that last said hello on each connection, how many writes there have
been, and what the coordinator has had it send. -/
structure World (O : Type) where
  conns : OrderedDict String ℕ := .empty
  named : OrderedDict ℕ String := .empty
  writes : ℕ := 0
  told : List (String × Message O) := []

abbrev Server (O : Type) := Coordinator (World O) O

inductive Event (O : Type) where
  | submit (task : String) (options : O) (priority : ℤ)
  | pause_task (task_id reason : String)
  | pause_below_priority (min_priority : ℤ) (reason : String)
  | resume_task (task_id : String)
  | stop_task (task_id : String)
  | hello (conn : ℕ) (hello : Hello)
  | status (status : Status)
  | result (result : Result)
  | closed (conn : ℕ)

namespace Server

open Coordinator

variable {O : Type}

section

variable (fails : ℕ → Bool)

/-- `_send_to`.  The oracle says which writes fail. -/
def send_to (s : Server O) (nid : String) (m : Message O) : Server O :=
  let s := { s with world := { s.world with told := s.world.told ++ [(nid, m)] } }
  match s.world.conns.get nid with
  | none => s
  | some _ =>
      let failed := fails s.world.writes
      let s := { s with world := { s.world with writes := s.world.writes + 1 } }
      if failed then
        let s := s.on_node_lost nid
        { s with world := { s.world with conns := s.world.conns.pop nid } }
      else s

def pumped (s : Server O) : Server O := (s.pump (send_to fails)).2

/-- The calls of the operator, and `_serve_node` with its `finally`. -/
def step (s : Server O) : Event O → Server O
  | .submit task options priority =>
      match s.submit task options none priority with
      | (.error _, s) => s
      | (.ok _, s) => pumped fails s
  | .pause_task tid reason => pumped fails (s.pause_task (send_to fails) tid reason).2
  | .pause_below_priority p reason =>
      pumped fails (s.pause_below_priority (send_to fails) p reason).2
  | .resume_task tid => pumped fails (s.resume_task tid).2
  | .stop_task tid => (s.stop_task (send_to fails) tid).2
  | .hello conn h =>
      let s := { s with world := { s.world with
        named := s.world.named.set conn h.node_id, conns := s.world.conns.set h.node_id conn } }
      pumped fails (s.on_hello h)
  | .status st => s.on_status st
  | .result r => pumped fails (s.on_result r)
  | .closed conn =>
      match s.world.named.get conn with
      | none => s
      | some nid =>
          if s.world.conns.get nid = some conn then
            let s := { s with world := { s.world with conns := s.world.conns.pop nid } }
            pumped fails (s.on_node_lost nid)
          else s

def run (s : Server O) (es : List (Event O)) : Server O := es.foldl (step fails) s

/-- The tasks a call says it has paused. -/
def pauses (s : Server O) : Event O → List String
  | .pause_task tid reason => if (s.pause_task (send_to fails) tid reason).1 then [tid] else []
  | .pause_below_priority p reason => (s.pause_below_priority (send_to fails) p reason).1
  | _ => []

/-- The task a call says it has resumed. -/
def resumes (s : Server O) : Event O → List String
  | .resume_task tid => if (s.resume_task tid).1 then [tid] else []
  | _ => []

/-- The task a call says it has submitted. -/
def submits (s : Server O) : Event O → List String
  | .submit task options priority =>
      match (s.submit task options none priority).1 with
      | .ok tid => [tid]
      | .error _ => []
  | _ => []

end

/-- A server with nothing to do. -/
def start (max_concurrent : Option ℤ) (max_attempts : ℤ) : Server O :=
  { max_concurrent, max_attempts, world := {} }

/-! ## What the operations leave alone -/

section

variable {W : Type} {c : Coordinator W O} {tid x nid reason : String}

theorem world_enqueue : (c.enqueue tid).world = c.world := by
  rw [enqueue]
  split_ifs <;> rfl

theorem world_requeue : (c.requeue tid reason).world = c.world := by
  rw [requeue]
  split
  · rfl
  · split_ifs
    · rfl
    · rfl
    · exact world_enqueue

theorem world_node_lost : (c.on_node_lost nid).world = c.world := by
  rw [on_node_lost]
  split
  · exact world_requeue
  · rfl

theorem world_hello {h : Hello} : (c.on_hello h).world = c.world := by
  rw [on_hello]
  split
  · exact world_requeue
  · rfl

theorem world_result {r : Result} : (c.on_result r).world = c.world := by
  have hrelease : (c.release r.node_id r.task_id).world = c.world := by
    rw [release]
    split
    · rfl
    · split_ifs <;> rfl
  rw [on_result, ← hrelease, conclude]
  split
  · rfl
  · simp only
    split_ifs
    · rfl
    · rfl
    · rfl
    · rfl
    · exact world_requeue

theorem world_submit {task : String} {options : O} {task_id : Option String} {priority : ℤ} :
    (c.submit task options task_id priority).2.world = c.world := by
  rw [submit]
  simp only
  split
  · rfl
  · exact world_enqueue

theorem world_resume : (c.resume_task tid).2.world = c.world := by
  rw [resume_task]
  split
  · rfl
  · split_ifs
    · rfl
    · exact world_enqueue

theorem world_status {st : Status} : (c.on_status st).world = c.world := by
  rw [on_status]
  split
  · rfl
  · split
    · rfl
    · split_ifs
      · rfl
      · split <;> rfl

theorem get_requeue (h : x ≠ tid) : (c.requeue tid reason).tasks.get x = c.tasks.get x := by
  rw [requeue]
  split
  · rfl
  · split_ifs
    · rfl
    · rw [get_put, if_neg h]
    · rw [tasks_enqueue, get_put, if_neg h]

theorem requeue_ended {t : Task O} (hget : c.tasks.get tid = some t)
    (hend : t.state = .PAUSED ∨ t.state = .DONE ∨ t.state = .FAILED) :
    c.requeue tid reason = c := by
  rw [requeue, hget]
  exact if_pos (by tauto)

theorem get_result {r : Result} (h : x ≠ r.task_id) :
    (c.on_result r).tasks.get x = c.tasks.get x := by
  have hrelease : (c.release r.node_id r.task_id).tasks = c.tasks := by
    rw [release]
    split
    · rfl
    · split_ifs <;> rfl
  rw [on_result, ← hrelease, conclude]
  split
  · rfl
  · simp only
    split_ifs
    · rfl
    · rw [get_put, if_neg h]
    · rw [get_put, if_neg h]
    · rw [get_put, if_neg h]
    · rw [get_requeue h, get_put, if_neg h]

end

/-! ## Tasks that are held back -/

/-- A task that no pump takes: it has ended, or it is paused, or it runs and a
pause is pending. -/
def Held (t : Task O) : Prop :=
  t.state = .PAUSED ∨ t.state = .DONE ∨ t.state = .FAILED ∨
    t.state = .RUNNING ∧ t.pause_reason ≠ ""

/-- A task that runs on a node with a pause pending. -/
def PendingOn (nid : String) (t : Task O) : Prop :=
  t.state = .RUNNING ∧ t.node_id = some nid ∧ t.pause_reason ≠ ""

/-- A way of being held back that a progress report and another pause keep. -/
structure Lasting (Q : Task O → Prop) : Prop where
  held : ∀ t, Q t → Held t
  detail : ∀ t t' : Task O, Q t → t'.state = t.state → t'.node_id = t.node_id →
    (t.pause_reason ≠ "" → t'.pause_reason ≠ "") → Q t'

theorem lasting_held : Lasting (Held (O := O)) where
  held := fun _ h => h
  detail := fun t t' h hs _ hp => by
    simp only [Held, hs] at h ⊢
    exact h.imp_right (Or.imp_right (Or.imp_right (And.imp_right hp)))

theorem lasting_pending (nid : String) : Lasting (PendingOn (O := O) nid) where
  held := fun _ h => .inr (.inr (.inr ⟨h.1, h.2.2⟩))
  detail := fun _ _ h hs hn hp => ⟨hs.trans h.1, hn.trans h.2.1, hp h.2.2⟩

/-- The task is held back in the way `Q`. -/
def Has {W : Type} (Q : Task O → Prop) (tid : String) (c : Coordinator W O) : Prop :=
  ∃ t, c.tasks.get tid = some t ∧ Q t

/-- A pause is pending for the task the node runs. -/
def pause_pending {W : Type} (c : Coordinator W O) (nid : String) : Bool :=
  match (c.holds nid).bind c.tasks.get with
  | some t => t.state = .RUNNING && t.pause_reason ≠ ""
  | none => false

section

variable {W : Type} {c c' : Coordinator W O} {tid x nid reason : String} {Q : Task O → Prop}

theorem Has.congr (h : Has Q tid c) (hget : c'.tasks.get tid = c.tasks.get tid) : Has Q tid c' := by
  obtain ⟨t, ht, hq⟩ := h
  exact ⟨t, hget.trans ht, hq⟩

theorem Has.not_queued (hQ : Lasting Q) (h : Has Q tid c) : c.state_of tid ≠ some .QUEUED := by
  obtain ⟨t, ht, hq⟩ := h
  rw [state_of_get ht]
  intro hs
  rcases hQ.held t hq with h | h | h | h
  · exact nomatch (Option.some.inj hs).symm.trans h
  · exact nomatch (Option.some.inj hs).symm.trans h
  · exact nomatch (Option.some.inj hs).symm.trans h
  · exact nomatch (Option.some.inj hs).symm.trans h.1

/-- What a node holds when no pause is pending for it is not held back, or has
ended. -/
theorem Has.ended (hQ : Lasting Q) (h : Has Q tid c) (hold : c.holds nid = some tid)
    (hpending : pause_pending c nid = false) :
    ∃ t, c.tasks.get tid = some t ∧ Q t ∧
      (t.state = .PAUSED ∨ t.state = .DONE ∨ t.state = .FAILED) := by
  obtain ⟨t, ht, hq⟩ := h
  refine ⟨t, ht, hq, ?_⟩
  rcases hQ.held t hq with hp | hd | hf | ⟨hr, hne⟩
  · exact .inl hp
  · exact .inr (.inl hd)
  · exact .inr (.inr hf)
  · rw [pause_pending, hold, Option.bind_some, ht] at hpending
    simp [hr, hne] at hpending

theorem has_node_lost (hQ : Lasting Q) (hpending : pause_pending c nid = false)
    (h : Has Q tid c) : Has Q tid (c.on_node_lost nid) := by
  rw [on_node_lost]
  cases hold : (c.nodes.get nid).bind Node.task_id with
  | none => exact h
  | some x =>
      by_cases hx : tid = x
      · subst hx
        obtain ⟨t, ht, hq, hend⟩ := h.ended hQ hold hpending
        refine ⟨t, ?_, hq⟩
        simp only
        rw [requeue_ended (c := { c with nodes := c.nodes.pop nid }) ht hend]
        exact ht
      · exact h.congr (get_requeue hx)

theorem has_hello (hQ : Lasting Q) {hello : Hello}
    (hpending : pause_pending c hello.node_id = false) (h : Has Q tid c) : Has Q tid (c.on_hello hello) := by
  rw [on_hello]
  cases hold : (c.nodes.get hello.node_id).bind Node.task_id with
  | none => exact h
  | some x =>
      by_cases hx : tid = x
      · subst hx
        obtain ⟨t, ht, hq, hend⟩ := h.ended hQ hold hpending
        refine ⟨t, ?_, hq⟩
        simp only
        rw [tasks_putNode, requeue_ended ht hend]
        exact ht
      · exact h.congr (by rw [tasks_putNode, get_requeue hx])

theorem has_status (hQ : Lasting Q) {st : Status} (h : Has Q tid c) :
    Has Q tid (c.on_status st) := by
  rw [on_status]
  split
  · exact h
  · split
    · exact h
    · rename_i y _
      split_ifs
      · exact h
      · cases hget : c.tasks.get y with
        | none => exact h
        | some t =>
            simp only
            by_cases hy : tid = y
            · subst hy
              obtain ⟨u, hu, hq⟩ := h
              obtain rfl := Option.some.inj (hget.symm.trans hu)
              exact ⟨{ t with step := st.step, detail := st.detail }, by rw [get_put, if_pos rfl],
                hQ.detail _ _ hq rfl rfl id⟩
            · exact h.congr (by rw [get_put, if_neg hy])

theorem has_submit {task : String} {options : O} {task_id : Option String} {priority : ℤ}
    (h : Has Q tid c) : Has Q tid (c.submit task options task_id priority).2 := by
  rw [submit]
  simp only
  split
  · exact h
  · rename_i hnone
    refine h.congr ?_
    rw [tasks_enqueue, get_put, if_neg]
    rintro rfl
    obtain ⟨t, ht, -⟩ := h
    cases hnone.symm.trans ht

theorem has_resume (h : Has Q tid c) (hnot : tid = x → (c.resume_task x).1 = false) :
    Has Q tid (c.resume_task x).2 := by
  rw [resume_task] at hnot ⊢
  cases hget : c.tasks.get x with
  | none => exact h
  | some t =>
      rw [hget] at hnot
      simp only at hnot ⊢
      split_ifs with hs
      · exact h
      · rw [if_neg hs] at hnot
        have hx : tid ≠ x := fun heq => by cases hnot heq
        exact h.congr (by rw [tasks_enqueue, get_put, if_neg hx])

/-- A task whose pause is pending is paused or done by the result of its node. -/
theorem held_result {r : Result} (h : Has Held r.task_id c) :
    Has Held r.task_id (c.on_result r) ∧
      (c.state_of r.task_id = some .RUNNING →
        (c.on_result r).state_of r.task_id = some .PAUSED ∨
          (c.on_result r).state_of r.task_id = some .DONE) := by
  obtain ⟨t, ht, hq⟩ := h
  have hrelease : (c.release r.node_id r.task_id).tasks = c.tasks := by
    rw [release]
    split
    · rfl
    · split_ifs <;> rfl
  rw [on_result, conclude, hrelease, ht]
  simp only
  split_ifs with hend hpause hcode hmax
  · refine ⟨⟨t, hrelease ▸ ht, hq⟩, fun hs => ?_⟩
    rw [state_of_get ht] at hs
    rcases hend with he | he | he <;> cases (Option.some.inj hs).symm.trans he
  · exact ⟨⟨_, by rw [get_put, if_pos rfl], .inl rfl⟩,
      fun _ => .inl (by rw [state_of_put, if_pos rfl])⟩
  · exact ⟨⟨_, by rw [get_put, if_pos rfl], .inr (.inl rfl)⟩,
      fun _ => .inr (by rw [state_of_put, if_pos rfl])⟩
  all_goals
    rcases hq with he | he | he | ⟨-, hne⟩
    · exact absurd (.inr (.inr he)) hend
    · exact absurd (.inl he) hend
    · exact absurd (.inr (.inl he)) hend
    · exact absurd ⟨hne, .inr (by simpa using hcode)⟩ hpause

end

/-! ## Writes -/

section

variable {fails : ℕ → Bool} {s s' : Server O} {tid x nid reason : String} {Q : Task O → Prop}
  {m : Message O}

/-- No write fails between the two states. -/
def Written (fails : ℕ → Bool) (s s' : Server O) : Prop :=
  ∀ k < s'.world.writes, s.world.writes ≤ k → fails k = false

instance (fails : ℕ → Bool) (s s' : Server O) : Decidable (Written fails s s') :=
  inferInstanceAs (Decidable (∀ k < _, _ → _))

theorem told_send_to : (send_to fails s nid m).world.told = s.world.told ++ [(nid, m)] := by
  rw [send_to]
  simp only
  split
  · rfl
  · split_ifs
    · exact congrArg World.told world_node_lost
    · rfl

theorem writes_send_to : s.world.writes ≤ (send_to fails s nid m).world.writes := by
  rw [send_to]
  simp only
  split
  · exact le_refl _
  · split_ifs
    · change _ ≤ World.writes (on_node_lost _ nid).world
      rw [world_node_lost]
      exact Nat.le_succ _
    · exact Nat.le_succ _

/-- A message that is written, or for which there is no connection, changes
nothing but what has been told. -/
theorem send_to_written (h : Written fails s (send_to fails s nid m)) :
    ∃ w, send_to fails s nid m = { s with world := w } := by
  rw [send_to] at h ⊢
  simp only at h ⊢
  split at h
  · exact ⟨_, rfl⟩
  · split_ifs at h ⊢ with hfails
    · refine absurd (h s.world.writes ?_ (le_refl _)) (by rw [hfails]; rintro ⟨⟩)
      change _ < World.writes (on_node_lost _ nid).world
      rw [world_node_lost]
      exact Nat.lt_succ_self _
    · exact ⟨_, rfl⟩

theorem consistent_world {w : World O} (h : Consistent s) : Consistent { s with world := w } where
  queued := h.queued
  nodup := h.nodup
  sorted := h.sorted
  plain := h.plain
  keyed := h.keyed
  held := h.held
  running := h.running

theorem idles_world {w : World O} : Idles [] s { s with world := w } := .of_tasks rfl rfl rfl

theorem consistent_send_to (s : Server O) (nid : String) (m : Message O) (h : Consistent s) :
    Consistent (send_to fails s nid m) := by
  rw [send_to]
  simp only
  split
  · exact consistent_world h
  · split_ifs
    · exact consistent_world (consistent_node_lost (consistent_world h))
    · exact consistent_world h

theorem idles_send_to (s : Server O) (nid : String) (m : Message O) :
    Idles [] s (send_to fails s nid m) := by
  rw [send_to]
  simp only
  split
  · exact idles_world
  · split_ifs
    · exact (Idles.trans idles_world idles_node_lost).trans idles_world
    · exact idles_world

theorem has_send_to (hQ : Lasting Q) (hpending : pause_pending s nid = false) (h : Has Q tid s) :
    Has Q tid (send_to fails s nid m) := by
  rw [send_to]
  simp only
  split
  · exact h
  · split_ifs
    · exact has_node_lost (c := { s with world := _ }) hQ hpending h
    · exact h

end

/-! ## Pausing -/

section

variable {fails : ℕ → Bool} {s s' s'' : Server O} {tid x nid reason : String} {Q : Task O → Prop}

theorem operator_ne : "operator" ≠ "" := by decide

/-- What has been told since then is all of one kind. -/
def Told (P : String × Message O → Prop) (s s' : Server O) : Prop :=
  ∃ later, s'.world.told = s.world.told ++ later ∧ ∀ m ∈ later, P m

def Stops (m : String × Message O) : Prop := ∃ x, m.2 = .stop x

/-- The message does not assign the task. -/
def Spares (tid : String) (m : String × Message O) : Prop :=
  ∀ task options, m.2 ≠ .assign tid task options

theorem Told.of_world {P : String × Message O → Prop} (h : s'.world.told = s.world.told) :
    Told P s s' := ⟨[], by rw [h, List.append_nil], nofun⟩

theorem Told.trans {P : String × Message O → Prop} (h : Told P s s') (h' : Told P s' s'') :
    Told P s s'' := by
  obtain ⟨l, hl, hp⟩ := h
  obtain ⟨l', hl', hp'⟩ := h'
  refine ⟨l ++ l', by rw [hl', hl, List.append_assoc], fun m hm => ?_⟩
  exact (List.mem_append.mp hm).elim (hp m) (hp' m)

theorem Told.imp {P P' : String × Message O → Prop} (h : Told P s s') (hp : ∀ m, P m → P' m) :
    Told P' s s' := by
  obtain ⟨l, hl, hall⟩ := h
  exact ⟨l, hl, fun m hm => hp m (hall m hm)⟩

theorem Stops.spares {m : String × Message O} (h : Stops m) : Spares tid m := by
  obtain ⟨x, hx⟩ := h
  intro task options heq
  exact nomatch hx.symm.trans heq

theorem told_sent {P : String × Message O → Prop} {m : Message O} (h : P (nid, m)) :
    Told P s (send_to fails s nid m) :=
  ⟨[(nid, m)], told_send_to, fun _ hm => List.mem_singleton.mp hm ▸ h⟩

theorem told_pause : Told Stops s (s.pause_task (send_to fails) x reason).2 := by
  rw [pause_task]
  split
  · exact .of_world rfl
  · split
    · exact .of_world rfl
    · exact .of_world rfl
    · exact .of_world rfl
    · exact .of_world rfl
    · split
      · exact .of_world rfl
      · exact Told.trans (.of_world rfl) (told_sent ⟨_, rfl⟩)

theorem writes_pause : s.world.writes ≤ (s.pause_task (send_to fails) x reason).2.world.writes := by
  rw [pause_task]
  split
  · exact le_refl _
  · split
    · exact le_refl _
    · exact le_refl _
    · exact le_refl _
    · exact le_refl _
    · split
      · exact le_refl _
      · exact writes_send_to (s := s.put x _)

theorem has_pause (hQ : Lasting Q) (h : Has Q tid s)
    (hw : Written fails s (s.pause_task (send_to fails) x reason).2) :
    Has Q tid (s.pause_task (send_to fails) x reason).2 := by
  rw [pause_task] at hw ⊢
  cases hget : s.tasks.get x with
  | none => exact h
  | some t =>
      rw [hget] at hw
      simp only at hw ⊢
      -- the task itself, in a new form that is held back likewise
      have hput : ∀ t' : Task O, t'.node_id = t.node_id → t'.state = t.state →
          (t.pause_reason ≠ "" → t'.pause_reason ≠ "") → Has Q tid (s.put x t') := by
        intro t' hn hs hp
        by_cases hx : tid = x
        · subst hx
          obtain ⟨u, hu, hq⟩ := h
          obtain rfl := Option.some.inj (hget.symm.trans hu)
          exact ⟨t', by rw [get_put, if_pos rfl], hQ.detail t t' hq hs hn hp⟩
        · exact h.congr (by rw [get_put, if_neg hx])
      cases hs : t.state with
      | DONE => exact h
      | FAILED => exact h
      | PAUSED =>
          refine hput _ rfl hs.symm ?_
          split_ifs with hr
          · exact id
          · exact fun _ => hr
      | QUEUED =>
          have hx : tid ≠ x := by
            rintro rfl
            exact h.not_queued hQ (by rw [state_of_get hget, hs])
          exact h.congr (get_put.trans (if_neg hx))
      | RUNNING =>
          rw [hs] at hw
          simp only at hw ⊢
          cases hn : t.node_id with
          | none => exact h
          | some nid =>
              rw [hn] at hw
              simp only at hw ⊢
              obtain ⟨w, heq⟩ := send_to_written (s := s.put x _) hw
              rw [heq]
              refine hput _ hn.symm hs.symm ?_
              split_ifs with hr
              · exact fun _ => operator_ne
              · exact fun _ => hr

/-- A task that is said to be paused is held back. -/
theorem held_pause (hw : Written fails s (s.pause_task (send_to fails) x reason).2)
    (hres : (s.pause_task (send_to fails) x reason).1 = true) :
    Has Held x (s.pause_task (send_to fails) x reason).2 := by
  rw [pause_task] at hw hres ⊢
  cases hget : s.tasks.get x with
  | none =>
      rw [hget] at hres
      cases hres
  | some t =>
      rw [hget] at hw hres
      simp only at hw hres ⊢
      cases hs : t.state with
      | DONE =>
          rw [hs] at hres
          cases hres
      | FAILED =>
          rw [hs] at hres
          cases hres
      | PAUSED => exact ⟨_, get_put.trans (if_pos rfl), .inl rfl⟩
      | QUEUED => exact ⟨_, get_put.trans (if_pos rfl), .inl rfl⟩
      | RUNNING =>
          rw [hs] at hw hres
          simp only at hw hres ⊢
          cases hn : t.node_id with
          | none =>
              rw [hn] at hres
              cases hres
          | some nid =>
              rw [hn] at hw
              simp only at hw ⊢
              obtain ⟨w, heq⟩ := send_to_written (s := s.put x _) hw
              rw [heq]
              refine ⟨_, get_put.trans (if_pos rfl), .inr (.inr (.inr ⟨rfl, ?_⟩))⟩
              simp only
              split_ifs with hr
              · exact of_decide_eq_false rfl
              · exact hr

theorem Written.mono (h : Written fails s s'') (hle : s.world.writes ≤ s'.world.writes)
    (hle' : s'.world.writes ≤ s''.world.writes) :
    Written fails s s' ∧ Written fails s' s'' :=
  ⟨fun k hk hs => h k (hk.trans_le hle') hs, fun k hk hs => h k hk (hle.trans hs)⟩

theorem pause_one_cases (fails : ℕ → Bool) (reason x : String) (p : ℤ)
    (acc : List String × Server O) :
    pause_one (send_to fails) p reason acc x = acc ∨
      pause_one (send_to fails) p reason acc x =
        (if (acc.2.pause_task (send_to fails) x reason).1 then acc.1 ++ [x] else acc.1,
          (acc.2.pause_task (send_to fails) x reason).2) := by
  rw [pause_one]
  cases acc.2.tasks.get x with
  | none => exact .inl rfl
  | some t =>
      by_cases hp : t.priority ≥ p
      · exact .inl (if_pos hp)
      · by_cases hs : t.state = .QUEUED ∨ t.state = .RUNNING
        · exact .inr ((if_neg hp).trans (if_pos hs))
        · exact .inl ((if_neg hp).trans (if_neg hs))

theorem writes_pause_fold (p : ℤ) : ∀ (xs : List String) (acc : List String × Server O),
    acc.2.world.writes ≤ (xs.foldl (pause_one (send_to fails) p reason) acc).2.world.writes
  | [], _ => le_refl _
  | x :: xs, acc => by
      refine le_trans ?_ (writes_pause_fold p xs _)
      rcases pause_one_cases fails reason x p acc with heq | heq
      · rw [heq]
      · rw [heq]
        exact writes_pause

/-- The loop of `pause_below_priority`: it sends nothing but stops, what is
held back stays so, and what it says it has paused is held back. -/
theorem pause_fold (p : ℤ) : ∀ (xs : List String) (acc : List String × Server O),
    Written fails acc.2 (xs.foldl (pause_one (send_to fails) p reason) acc).2 →
    Told Stops acc.2 (xs.foldl (pause_one (send_to fails) p reason) acc).2 ∧
      (∀ Q tid, Lasting Q → Has Q tid acc.2 →
        Has Q tid (xs.foldl (pause_one (send_to fails) p reason) acc).2) ∧
      ∀ y ∈ (xs.foldl (pause_one (send_to fails) p reason) acc).1, y ∈ acc.1 ∨
        Has Held y (xs.foldl (pause_one (send_to fails) p reason) acc).2
  | [], _, _ => ⟨.of_world rfl, fun _ _ _ h => h, fun _ hy => .inl hy⟩
  | x :: xs, acc, hw => by
      rw [List.foldl_cons] at hw ⊢
      rcases pause_one_cases fails reason x p acc with heq | heq
      · rw [heq] at hw ⊢
        exact pause_fold p xs acc hw
      · rw [heq] at hw ⊢
        have hle : acc.2.world.writes ≤
            (acc.2.pause_task (send_to fails) x reason).2.world.writes := writes_pause
        obtain ⟨hone, hrest⟩ := hw.mono hle (writes_pause_fold p xs (_, _))
        obtain ⟨htold, hhas, hpaused⟩ := pause_fold p xs _ hrest
        refine ⟨told_pause.trans htold, fun Q tid hQ h => hhas Q tid hQ (has_pause hQ h hone),
          fun y hy => ?_⟩
        rcases hpaused y hy with hmem | hheld
        · by_cases hres : (acc.2.pause_task (send_to fails) x reason).1 = true
          · rw [if_pos hres] at hmem
            rcases List.mem_append.mp hmem with hmem | hmem
            · exact .inl hmem
            · obtain rfl := List.mem_singleton.mp hmem
              exact .inr (hhas Held y lasting_held (held_pause hone hres))
          · rw [if_neg hres] at hmem
            exact .inl hmem
        · exact .inr hheld

theorem told_stop : Told Stops s (s.stop_task (send_to fails) x).2 := by
  rw [stop_task]
  split
  · exact .of_world rfl
  · split_ifs
    · exact .of_world rfl
    · split
      · exact .of_world rfl
      · exact told_sent ⟨_, rfl⟩

/-- A stop whose write fails loses the node, which matters only to a task whose
pause is pending. -/
theorem has_stop (hQ : Lasting Q) (hc : Consistent s) (h : Has Q tid s)
    (hw : ∀ t ∈ s.tasks.get x, t.state = .RUNNING → t.pause_reason ≠ "" →
      Written fails s (s.stop_task (send_to fails) x).2) :
    Has Q tid (s.stop_task (send_to fails) x).2 := by
  rw [stop_task] at hw ⊢
  cases hget : s.tasks.get x with
  | none => exact h
  | some t =>
      have hw := hw t hget
      rw [hget] at hw
      simp only at hw ⊢
      split_ifs with hs
      · exact h
      · rw [not_not] at hs
        rw [if_neg (not_not.mpr hs)] at hw
        cases hn : t.node_id with
        | none => exact h
        | some nid =>
            rw [hn] at hw
            simp only at hw ⊢
            by_cases hp : t.pause_reason = ""
            · refine has_send_to hQ ?_ h
              obtain ⟨a, ha, hold⟩ := hc.running x (by rw [state_of_get hget, hs])
              rw [node_of_get hget, hn] at ha
              obtain rfl := Option.some.inj ha
              rw [pause_pending, hold, Option.bind_some, hget]
              simp [hp]
            · obtain ⟨w, heq⟩ := send_to_written (hw hs hp)
              rw [heq]
              exact h

end

/-! ## One event -/

section

variable {fails : ℕ → Bool} {s : Server O} {tid : String} {Q : Task O → Prop} {e : Event O}

/-- A result comes from the node that runs the task, and does not end a queued
one. -/
def Prompt (c : Coordinator (World O) O) (r : Result) : Prop :=
  Retries c r ∧ ∀ t ∈ c.tasks.get r.task_id, t.state = .RUNNING →
    c.holds r.node_id = some r.task_id

instance (c : Coordinator (World O) O) (r : Result) : Decidable (Prompt c r) :=
  inferInstanceAs (Decidable (Retries c r ∧ ∀ t ∈ _, _))

/-- Results are prompt, and no node is lost, says hello again or cannot be told
to stop while a pause is pending for its task. -/
def Meets (fails : ℕ → Bool) (s : Server O) : Event O → Prop
  | .hello _ h => pause_pending s h.node_id = false
  | .closed conn => ∀ nid ∈ s.world.named.get conn,
      s.world.conns.get nid = some conn → pause_pending s nid = false
  | .result r => Prompt s r
  | .pause_task tid reason => Written fails s (s.pause_task (send_to fails) tid reason).2
  | .pause_below_priority p reason =>
      Written fails s (s.pause_below_priority (send_to fails) p reason).2
  | .stop_task tid => ∀ t ∈ s.tasks.get tid, t.state = .RUNNING → t.pause_reason ≠ "" →
      Written fails s (s.stop_task (send_to fails) tid).2
  | .submit .. | .resume_task _ | .status _ => True

instance (fails : ℕ → Bool) (s : Server O) (e : Event O) : Decidable (Meets fails s e) :=
  match e with
  | .hello _ h => inferInstanceAs (Decidable (pause_pending s h.node_id = false))
  | .closed _ => inferInstanceAs (Decidable (∀ nid ∈ _, _ → pause_pending s nid = false))
  | .result r => inferInstanceAs (Decidable (Prompt s r))
  | .pause_task .. => inferInstanceAs (Decidable (Written fails s _))
  | .pause_below_priority .. => inferInstanceAs (Decidable (Written fails s _))
  | .stop_task _ => inferInstanceAs (Decidable (∀ t ∈ _, _ → _ → Written fails s _))
  | .submit .. | .resume_task _ | .status _ => isTrue trivial

theorem consistent_pumped (h : Consistent s) : Consistent (pumped fails s) :=
  consistent_pump consistent_send_to h

theorem consistent_step (h : Consistent s) (hmeets : Meets fails s e) :
    Consistent (step fails s e) := by
  cases e with
  | submit task options priority =>
      rw [step]
      have hc : Consistent (s.submit task options none priority).2 := consistent_submit h
      rcases hsub : s.submit task options none priority with ⟨_ | _, s'⟩ <;> rw [hsub] at hc
      · exact hc
      · exact consistent_pumped hc
  | pause_task tid reason => exact consistent_pumped (consistent_pause consistent_send_to h)
  | pause_below_priority p reason =>
      exact consistent_pumped (consistent_pause_below consistent_send_to h)
  | resume_task tid => exact consistent_pumped (consistent_resume h)
  | stop_task tid => exact consistent_stop consistent_send_to h
  | hello conn hello => exact consistent_pumped (consistent_hello (consistent_world h))
  | status st => exact consistent_status h
  | result r =>
      refine consistent_pumped (consistent_result h ⟨hmeets.1, fun t ht hs => ?_⟩)
      exact .inl (hmeets.2 t ht hs)
  | closed conn =>
      rw [step]
      split
      · exact h
      · split_ifs
        · exact consistent_pumped (consistent_node_lost (consistent_world h))
        · exact h

/-- The dispatch loop leaves alone what is held back. -/
theorem has_pumped (hQ : Lasting Q) (hc : Consistent s) (h : Has Q tid s) :
    Has Q tid (pumped fails s) ∧ Told (Spares tid) s (pumped fails s) := by
  have hpump : Consistent (pumped fails s) ∧ Has Q tid (pumped fails s) ∧
      Told (Spares tid) s (pumped fails s) :=
    pump_rule (P := fun d : Server O => Consistent d ∧ Has Q tid d ∧ Told (Spares tid) s d)
      (fun d x t n hd hget hq _ hidle => by
      obtain ⟨hcd, hhas, htold⟩ := hd
      have hx : tid ≠ x := by
        rintro rfl
        exact hhas.not_queued hQ (by rw [state_of_get hget, hq])
      have hassigned : Has Q tid (d.assigned x t n) :=
        hhas.congr (get_put.trans (if_neg hx))
      have hpending : pause_pending (d.assigned x t n) n.node_id = false := by
        have hold : (d.assigned x t n).holds n.node_id = some x :=
          holds_putNode.trans (if_pos rfl)
        have hget' : (d.assigned x t n).tasks.get x = some _ := get_put.trans (if_pos rfl)
        rw [pause_pending, hold, Option.bind_some, hget']
        simp
      refine ⟨consistent_send_to _ _ _ (consistent_assigned hcd hget hq hidle),
        has_send_to hQ hpending hassigned, htold.trans ?_⟩
      refine Told.trans (.of_world rfl) (told_sent (s := d.assigned x t n) ?_)
      intro task options heq
      injection heq with heq
      exact hx heq.symm)
    ⟨hc, h, .of_world rfl⟩
  exact ⟨hpump.2.1, hpump.2.2⟩

/-- What is held back stays so, and is not assigned, unless it is resumed or
its result arrives. -/
theorem has_step (hQ : Lasting Q) (hc : Consistent s) (hmeets : Meets fails s e)
    (h : Has Q tid s) (hres : tid ∉ resumes s e)
    (hresult : ∀ r, e = .result r → r.task_id = tid → Has Q tid (s.on_result r)) :
    Has Q tid (step fails s e) ∧ Told (Spares tid) s (step fails s e) := by
  -- what the operation leaves, the dispatch loop after it leaves
  have hthen : ∀ s' : Server O, Consistent s' → Has Q tid s' → Told (Spares tid) s s' →
      Has Q tid (pumped fails s') ∧ Told (Spares tid) s (pumped fails s') := by
    intro s' hc' h' htold
    obtain ⟨hhas, hpump⟩ := has_pumped hQ hc' h'
    exact ⟨hhas, htold.trans hpump⟩
  cases e with
  | submit task options priority =>
      have hsub : Has Q tid (s.submit task options none priority).2 := has_submit h
      have hcs : Consistent (s.submit task options none priority).2 := consistent_submit hc
      have hw : (s.submit task options none priority).2.world = s.world := world_submit
      rw [step]
      rcases hr : s.submit task options none priority with ⟨_ | _, s'⟩ <;> rw [hr] at hsub hcs hw
      · exact ⟨hsub, .of_world (congrArg World.told hw)⟩
      · exact hthen s' hcs hsub (.of_world (congrArg World.told hw))
  | pause_task x reason =>
      exact hthen _ (consistent_pause consistent_send_to hc) (has_pause hQ h hmeets)
        (told_pause.imp fun _ hm => hm.spares)
  | pause_below_priority p reason =>
      obtain ⟨htold, hhas, -⟩ := pause_fold p s.tasks.keys ([], s) hmeets
      exact hthen _ (consistent_pause_below consistent_send_to hc) (hhas Q tid hQ h)
        (htold.imp fun _ hm => hm.spares)
  | resume_task x =>
      refine hthen _ (consistent_resume hc) (has_resume h ?_)
        (.of_world (congrArg World.told world_resume))
      rintro rfl
      by_contra htrue
      exact hres (by simp [resumes, Bool.eq_true_of_not_eq_false htrue])
  | stop_task x => exact ⟨has_stop hQ hc h hmeets, told_stop.imp fun _ hm => hm.spares⟩
  | hello conn hello =>
      refine hthen _ (consistent_hello (consistent_world hc)) ?_ (.of_world ?_)
      · exact has_hello hQ hmeets h
      · exact (congrArg World.told world_hello).trans rfl
  | status st => exact ⟨has_status hQ h, .of_world (congrArg World.told world_status)⟩
  | result r =>
      have hresultc : Consistent (s.on_result r) :=
        consistent_result hc ⟨hmeets.1, fun t ht hs => .inl (hmeets.2 t ht hs)⟩
      refine hthen _ hresultc ?_ (.of_world (congrArg World.told world_result))
      by_cases hx : tid = r.task_id
      · exact hresult r rfl hx.symm
      · exact h.congr (get_result hx)
  | closed conn =>
      rw [step]
      cases hn : s.world.named.get conn with
      | none => exact ⟨h, .of_world rfl⟩
      | some nid =>
          simp only
          split_ifs with hconn
          · refine hthen _ (consistent_node_lost (consistent_world hc)) ?_ (.of_world ?_)
            · exact has_node_lost hQ (hmeets nid hn hconn) h
            · exact (congrArg World.told world_node_lost).trans rfl
          · exact ⟨h, .of_world rfl⟩

/-- A task that a call says it has paused is held back after it. -/
theorem paused_step (hc : Consistent s) (hmeets : Meets fails s e) (h : tid ∈ pauses fails s e) :
    Has Held tid (step fails s e) ∧ Told (Spares tid) s (step fails s e) := by
  cases e with
  | pause_task x reason =>
      rw [pauses] at h
      split_ifs at h with hres
      · obtain rfl := List.mem_singleton.mp h
        obtain ⟨hhas, htold⟩ := has_pumped lasting_held
          (consistent_pause consistent_send_to hc) (held_pause hmeets hres)
        exact ⟨hhas, (told_pause.imp fun _ hm => hm.spares).trans htold⟩
      · cases h
  | pause_below_priority p reason =>
      obtain ⟨hstops, -, hpaused⟩ := pause_fold p s.tasks.keys ([], s) hmeets
      have hheld := (hpaused tid h).resolve_left nofun
      obtain ⟨hhas, htold⟩ := has_pumped lasting_held
        (consistent_pause_below consistent_send_to hc) hheld
      exact ⟨hhas, (hstops.imp fun _ hm => hm.spares).trans htold⟩
  | _ => cases h

/-- A task whose pause is pending runs on, or ends by the result of its node. -/
theorem pending_step {nid : String} (hc : Consistent s) (hmeets : Meets fails s e)
    (h : Has (PendingOn nid) tid s) :
    Has (PendingOn nid) tid (step fails s e) ∨
      ∃ r, e = .result r ∧ r.task_id = tid ∧ s.holds r.node_id = some tid ∧
        ((step fails s e).state_of tid = some .PAUSED ∨
          (step fails s e).state_of tid = some .DONE) := by
  have hrunning : s.state_of tid = some .RUNNING := by
    obtain ⟨t, ht, hp⟩ := h
    rw [state_of_get ht, hp.1]
  by_cases hr : ∃ r, e = .result r ∧ r.task_id = tid
  · obtain ⟨r, rfl, rfl⟩ := hr
    obtain ⟨t, ht, hp⟩ := h
    have hheld : Has Held r.task_id s := ⟨t, ht, (lasting_pending nid).held t hp⟩
    obtain ⟨hafter, hends⟩ := held_result hheld
    have hresultc : Consistent (s.on_result r) :=
      consistent_result hc ⟨hmeets.1, fun t ht hs => .inl (hmeets.2 t ht hs)⟩
    refine .inr ⟨r, rfl, rfl, hmeets.2 t ht hp.1, ?_⟩
    -- the dispatch loop keeps the state it ends in
    have hsame : ∀ st, (s.on_result r).state_of r.task_id = some st →
        Lasting (fun t : Task O => t.state = st) →
        (step fails s (.result r)).state_of r.task_id = some st := by
      intro st hst hlast
      obtain ⟨t', ht', hs'⟩ := get_of_state hst
      obtain ⟨⟨u, hu, hus⟩, -⟩ := has_pumped hlast hresultc ⟨t', ht', hs'⟩
      exact (state_of_get hu).trans (congrArg some hus)
    rcases hends hrunning with hst | hst
    · exact .inl (hsame _ hst ⟨fun _ h => .inl h, fun _ _ h hs _ _ => hs.trans h⟩)
    · exact .inr (hsame _ hst ⟨fun _ h => .inr (.inl h), fun _ _ h hs _ _ => hs.trans h⟩)
  · refine .inl (has_step (lasting_pending nid) hc hmeets h ?_ ?_).1
    · intro hmem
      cases e with
      | resume_task x =>
          rw [resumes] at hmem
          split_ifs at hmem with hres
          · obtain rfl := List.mem_singleton.mp hmem
            obtain ⟨t, ht, hp⟩ := h
            rw [resume_task, ht] at hres
            simp [hp.1] at hres
          · cases hmem
      | _ => cases hmem
    · exact fun r he ht => absurd ⟨r, he, ht⟩ hr

/-- No task is lost. -/
def Keeps (s s' : Server O) : Prop :=
  ∀ x t, s.tasks.get x = some t → ∃ t', s'.tasks.get x = some t'

theorem Keeps.trans {s' s'' : Server O} (h : Keeps s s') (h' : Keeps s' s'') : Keeps s s'' := by
  intro x t ht
  obtain ⟨t', ht'⟩ := h x t ht
  exact h' x t' ht'

theorem keeps_pumped : Keeps s (pumped fails s) := by
  refine pump_rule (P := fun d : Server O => Keeps s d) (fun d x t n hd _ _ _ _ => ?_)
    (fun x t ht => ⟨t, ht⟩)
  refine (hd.trans (fun y u hu => ?_)).trans (idles_send_to _ _ _).kept
  have hget : (d.assigned x t n).tasks.get y = if y = x then some _ else d.tasks.get y := get_put
  rw [hget]
  split_ifs
  · exact ⟨_, rfl⟩
  · exact ⟨u, hu⟩

theorem keeps_step : Keeps s (step fails s e) := by
  cases e with
  | submit task options priority =>
      have hsub : Idles [] s (s.submit task options none priority).2 := idles_submit
      rw [step]
      rcases hr : s.submit task options none priority with ⟨_ | _, s'⟩ <;> rw [hr] at hsub
      · exact hsub.kept
      · exact Keeps.trans hsub.kept keeps_pumped
  | pause_task x reason => exact Keeps.trans (idles_pause idles_send_to).kept keeps_pumped
  | pause_below_priority p reason =>
      exact Keeps.trans (idles_pause_below idles_send_to).kept keeps_pumped
  | resume_task x =>
      have hres : Idles [x] s (s.resume_task x).2 := idles_resume (fun _ => List.mem_singleton_self x)
      exact Keeps.trans hres.kept keeps_pumped
  | stop_task x => exact (idles_stop idles_send_to).kept
  | hello conn hello =>
      refine Keeps.trans ?_ keeps_pumped
      have hidle : ∀ w, Idles [] s (on_hello { s with world := w } hello) :=
        fun _ => idles_world.trans idles_hello
      exact (hidle _).kept
  | status st =>
      have hidle : Idles [] s (s.on_status st) := idles_status
      exact hidle.kept
  | result r =>
      have hidle : Idles [] s (s.on_result r) := idles_result
      exact Keeps.trans hidle.kept keeps_pumped
  | closed conn =>
      rw [step]
      split
      · exact fun x t ht => ⟨t, ht⟩
      · split_ifs
        · refine Keeps.trans ?_ keeps_pumped
          have hidle : ∀ w nid, Idles [] s (on_node_lost { s with world := w } nid) :=
            fun _ _ => idles_world.trans idles_node_lost
          exact (hidle _ _).kept
        · exact fun x t ht => ⟨t, ht⟩

theorem submitted_step (h : tid ∈ submits s e) :
    ∃ t, (step fails s e).tasks.get tid = some t := by
  cases e with
  | submit task options priority =>
      rw [submits] at h
      rw [step]
      rcases hr : s.submit task options none priority with ⟨_ | x, s'⟩
      · rw [hr] at h
        cases h
      · rw [hr] at h
        obtain rfl := List.mem_singleton.mp h
        have hnew : ∃ t, s'.tasks.get tid = some t := by
          rw [submit] at hr
          simp only at hr
          split at hr
          · cases hr
          · injection hr with hid hs
            injection hid with hid
            rw [← hs, ← hid, tasks_enqueue, get_put, if_pos rfl]
            exact ⟨_, rfl⟩
        obtain ⟨t, ht⟩ := hnew
        exact keeps_pumped tid t ht
  | _ => cases h

end

/-! ## Runs -/

section

variable (fails : ℕ → Bool)

def AllMeet (s : Server O) : List (Event O) → Prop
  | [] => True
  | e :: es => Meets fails s e ∧ AllMeet (step fails s e) es

def decideAllMeet (s : Server O) : (es : List (Event O)) → Decidable (AllMeet fails s es)
  | [] => isTrue trivial
  | e :: es =>
      have := decideAllMeet (step fails s e) es
      inferInstanceAs (Decidable (Meets fails s e ∧ AllMeet fails (step fails s e) es))

instance (s : Server O) (es : List (Event O)) : Decidable (AllMeet fails s es) :=
  decideAllMeet fails s es

/-- No call of the run says it has resumed the task. -/
def NotResumed (tid : String) (s : Server O) : List (Event O) → Prop
  | [] => True
  | e :: es => tid ∉ resumes s e ∧ NotResumed tid (step fails s e) es

/-- What is promised of a run that started in `s₀`. -/
structure Kept (s₀ : Server O) (es : List (Event O)) : Prop where
  /-- Settled means that nothing is queued and nothing runs. -/
  settled : (run fails s₀ es).is_settled = true ↔ ∀ tid,
    (run fails s₀ es).state_of tid ≠ some .QUEUED ∧ (run fails s₀ es).state_of tid ≠ some .RUNNING
  /-- A task that has been submitted has a state ever after. -/
  listed : ∀ before e after, es = before ++ e :: after → ∀ tid ∈ submits (run fails s₀ before) e,
    ∃ state, (run fails s₀ es).state_of tid = some state
  /-- A task that is said to be paused is not assigned before it is resumed:
  it is paused, or it has ended, or its pause is still pending. -/
  paused : ∀ before e after, es = before ++ e :: after →
    ∀ tid ∈ pauses fails (run fails s₀ before) e,
      NotResumed fails tid (run fails s₀ (before ++ [e])) after →
        Told (Spares tid) (run fails s₀ before) (run fails s₀ es) ∧ Has Held tid (run fails s₀ es)
  /-- A pending pause ends with the result of the node that holds the task. -/
  ends : ∀ before e, es = before ++ [e] → ∀ tid nid, Has (PendingOn nid) tid (run fails s₀ before) →
    Has (PendingOn nid) tid (run fails s₀ es) ∨
      ∃ r, e = .result r ∧ r.task_id = tid ∧ (run fails s₀ before).holds r.node_id = some tid ∧
        ((run fails s₀ es).state_of tid = some .PAUSED ∨
          (run fails s₀ es).state_of tid = some .DONE)

end

section

variable {fails : ℕ → Bool} {s : Server O} {tid : String}

theorem run_append (es es' : List (Event O)) :
    run fails s (es ++ es') = run fails (run fails s es) es' := List.foldl_append

theorem AllMeet.split : ∀ {es es' : List (Event O)} {s : Server O}, AllMeet fails s (es ++ es') →
    AllMeet fails s es ∧ AllMeet fails (run fails s es) es'
  | [], _, _, h => ⟨trivial, h⟩
  | _ :: es, _, _, h => by
      obtain ⟨hes, hes'⟩ := h.2.split
      exact ⟨⟨h.1, hes⟩, hes'⟩

theorem consistent_run : ∀ {es : List (Event O)} {s : Server O}, Consistent s →
    AllMeet fails s es → Consistent (run fails s es)
  | [], _, h, _ => h
  | e :: es, s, h, hmeets => by
      have hrest : Consistent (run fails (step fails s e) es) :=
        consistent_run (consistent_step h hmeets.1) hmeets.2
      exact hrest

theorem keeps_run : ∀ {es : List (Event O)} {s : Server O}, Keeps s (run fails s es)
  | [], _ => fun _ t ht => ⟨t, ht⟩
  | _ :: _, _ => Keeps.trans keeps_step keeps_run

theorem held_run : ∀ {es : List (Event O)} {s : Server O}, Consistent s → AllMeet fails s es →
    Has Held tid s → NotResumed fails tid s es →
      Told (Spares tid) s (run fails s es) ∧ Has Held tid (run fails s es)
  | [], _, _, _, h, _ => ⟨.of_world rfl, h⟩
  | e :: es, s, hc, hmeets, h, hres => by
      have hresult : ∀ r, e = .result r → r.task_id = tid → Has Held tid (s.on_result r) := by
        rintro r - rfl
        exact (held_result h).1
      obtain ⟨hhas, htold⟩ := has_step lasting_held hc hmeets.1 h hres.1 hresult
      obtain ⟨htold', hhas'⟩ := held_run (consistent_step hc hmeets.1) hmeets.2 hhas hres.2
      exact ⟨htold.trans htold', hhas'⟩

theorem consistent_start (max_concurrent : Option ℤ) (max_attempts : ℤ) :
    Consistent (start (O := O) max_concurrent max_attempts) where
  queued := fun _ => ⟨nofun, nofun⟩
  nodup := List.nodup_nil
  sorted := List.Pairwise.nil
  plain := nofun
  keyed := nofun
  held := nofun
  running := nofun

theorem settled_iff (h : Consistent s) : s.is_settled = true ↔ ∀ tid,
    s.state_of tid ≠ some .QUEUED ∧ s.state_of tid ≠ some .RUNNING := by
  have hq : s.queued_count = 0 ↔ ∀ tid, s.state_of tid ≠ some .QUEUED := by
    rw [queued_count, List.length_eq_zero_iff, List.eq_nil_iff_forall_not_mem]
    exact forall_congr' (fun tid => not_congr (h.queued tid))
  have hr : s.running_count = 0 ↔ ∀ tid, s.state_of tid ≠ some .RUNNING := by
    rw [running_count_eq, List.length_eq_zero_iff, List.eq_nil_iff_forall_not_mem]
    exact forall_congr' (fun tid => not_congr mem_running_ids)
  rw [is_settled, Bool.and_eq_true, decide_eq_true_iff, decide_eq_true_iff, hq, hr]
  exact ⟨fun h tid => ⟨h.2 tid, h.1 tid⟩, fun h => ⟨fun tid => (h tid).2, fun tid => (h tid).1⟩⟩

/-- In every run whose results are prompt, and in which no node is lost, comes
back or cannot be told while a pause is pending for its task, a pause lasts
until the task is resumed or its node reports, and no task is lost. -/
theorem pauses_kept (fails : ℕ → Bool) (max_concurrent : Option ℤ) (max_attempts : ℤ)
    (es : List (Event O)) (hmeets : AllMeet fails (start max_concurrent max_attempts) es) :
    Kept fails (start max_concurrent max_attempts) es where
  settled := settled_iff (consistent_run (consistent_start _ _) hmeets)
  listed := fun before e after heq tid htid => by
    subst heq
    obtain ⟨t, ht⟩ : ∃ t, (step fails _ e).tasks.get tid = some t := submitted_step htid
    rw [run_append]
    obtain ⟨t', ht'⟩ := keeps_run tid t ht
    exact ⟨t'.state, state_of_get ht'⟩
  paused := fun before e after heq tid htid hres => by
    subst heq
    obtain ⟨hbefore, he, hafter⟩ := AllMeet.split hmeets
    have hc := consistent_run (consistent_start _ _) hbefore
    obtain ⟨hheld, htold⟩ := paused_step hc he htid
    rw [run_append] at hres ⊢
    obtain ⟨htold', hheld'⟩ := held_run (consistent_step hc he) hafter hheld hres
    exact ⟨htold.trans htold', hheld'⟩
  ends := fun before e heq tid nid hpending => by
    subst heq
    obtain ⟨hbefore, he, -⟩ := AllMeet.split hmeets
    rw [run_append]
    exact pending_step (consistent_run (consistent_start _ _) hbefore) he hpending

/-- Two nodes, and a task that the first runs when it is paused. -/
def pausedTask : List (Event Unit) :=
  [.hello 1 { node_id := "n1" }, .hello 2 { node_id := "n2" }, .submit "x" () 0,
    .pause_task "t1" "quota"]

/-- The node reports that it has stopped. -/
theorem pauses_kept_stopped : Kept (fun _ => false) (start none 2)
    (pausedTask ++ [.result { node_id := "n1", task_id := "t1", code := 5 }]) :=
  pauses_kept _ none 2 _ (by decide +kernel)

/-- The first node is lost before it reports, and the second gets the task. -/
theorem assigned_while_paused :
    pauses (fun _ => false) (run (fun _ => false) (start none 2) (pausedTask.take 3))
        (.pause_task "t1" "quota") = ["t1"] ∧
      (run (fun _ => false) (start none 2) pausedTask).state_of "t1" = some .RUNNING ∧
      (run (fun _ => false) (start none 2) (pausedTask ++ [.closed 1])).holds "n2" = some "t1" ∧
      (run (fun _ => false) (start none 2) (pausedTask ++ [.closed 1])).world.told.map Prod.fst =
        ["n1", "n1", "n2"] := by
  decide +kernel

end

end Server

end Secdogie.Fleet
