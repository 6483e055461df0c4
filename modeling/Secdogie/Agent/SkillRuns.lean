/-
# `Secdogie.Agent.SkillRuns` — whole runs of a skill

`run_skill` against the meaning of the program.  What every run keeps, whether
the program means anything or not, is `Walks`: statements within the budget,
calls paid for by statements, actions counted.

`completed_sound`: a run that completes did what the skill means.
`guarded_prefix`: where the skill means something, its run completes with
exactly that, or a guard cut it and says why.
`run_skill_bounded`: every run is bounded.
-/
import Secdogie.Agent.SkillSemantics

namespace Secdogie.Agent.Skill

open Secdogie.Graph Secdogie.Identity

section

variable {F : Type} [PyFloat F] {B : Builtins F} {W : Callbacks F} {skills : Skills F} {bounds : Bounds}

/-! ## Bounds -/

/-- The state that a run ends in, whether it raises or not. -/
def stateOf {α : Type} : Run F α → State F
  | .error e => e.2
  | .ok p => p.2

/-- How many actions were carried out. -/
def executed (t : List (Call F)) : ℕ :=
  t.countP fun c =>
    match c with
    | .execute _ => true
    | .check _ => false

/-- From `st` to `st'`, `n` statements were walked, and besides what they are
allowed, `extra` calls made. -/
structure Walked (bounds : Bounds) (n extra : ℕ) (st st' : State F) : Prop where
  trace : st.trace <+: st'.trace
  stmt : st'.stmt = st.stmt + n
  budget : st'.stmt ≤ max st.stmt bounds.max_statements
  calls : st'.trace.length ≤ st.trace.length + extra + n * (bounds.max_loop + 1)

/-- What holds when nothing is raised: every action is counted, and who was
stopped had made no call since. -/
structure Settled (W : Callbacks F) (st st' : State F) : Prop where
  actions : st'.actions + executed st.trace = st.actions + executed st'.trace
  stopped : st'.reason = some .stopped → st.reason = some .stopped ∨ W.should_stop st'.trace st'.stmt = true

def Walks {α : Type} (W : Callbacks F) (bounds : Bounds) (extra : ℕ) (st : State F) (res : Run F α) : Prop :=
  (∃ n, Walked bounds n extra st (stateOf res)) ∧ ∀ p, res = .ok p → Settled W st p.2

omit [PyFloat F] in
theorem Walked.refl (bounds : Bounds) (extra : ℕ) (st : State F) : Walked bounds 0 extra st st :=
  ⟨List.prefix_rfl, rfl, le_max_left _ _, by omega⟩

omit [PyFloat F] in
theorem Settled.refl (W : Callbacks F) (st : State F) : Settled W st st := ⟨rfl, .inl⟩

omit [PyFloat F] in
theorem Walked.trans {n n' extra extra' : ℕ} {st st₁ st₂ : State F} (h : Walked bounds n extra st st₁)
    (h' : Walked bounds n' extra' st₁ st₂) : Walked bounds (n + n') (extra + extra') st st₂ where
  trace := h.trace.trans h'.trace
  stmt := by rw [h'.stmt, h.stmt, Nat.add_assoc]
  budget := by
    have := h.budget
    have := h'.budget
    omega
  calls := by
    have h₁ := h.calls
    have h₂ := h'.calls
    rw [Nat.add_mul]
    omega

omit [PyFloat F] in
theorem Settled.trans {st st₁ st₂ : State F} (h : Settled W st st₁) (h' : Settled W st₁ st₂)
    (hgo : st₁.reason = none) : Settled W st st₂ where
  actions := by
    have h₁ := h.actions
    have h₂ := h'.actions
    omega
  stopped hreason := by
    rcases h'.stopped hreason with hstop | hstop
    · rw [hgo] at hstop
      cases hstop
    · exact .inr hstop

omit [PyFloat F] in
theorem Walks.ok {α : Type} {n extra : ℕ} {st st' : State F} {a : α} (h : Walked bounds n extra st st')
    (hsettled : Settled W st st') : Walks W bounds extra st (.ok (a, st')) := by
  refine ⟨⟨n, h⟩, fun p hp => ?_⟩
  rw [← Except.ok.inj hp]
  exact hsettled

omit [PyFloat F] in
theorem Walks.error {α : Type} {n extra : ℕ} {st st' : State F} (e : Exn) (h : Walked bounds n extra st st') :
    Walks W bounds extra st (.error (e, st') : Run F α) :=
  ⟨⟨n, h⟩, fun p hp => by cases hp⟩

omit [PyFloat F] in
theorem Walks.refl {α : Type} (extra : ℕ) (st : State F) (a : α) : Walks W bounds extra st (.ok (a, st)) :=
  .ok (Walked.refl bounds extra st) (Settled.refl W st)

omit [PyFloat F] in
theorem Walks.raise {α : Type} (extra : ℕ) (st : State F) (e : Exn) :
    Walks W bounds extra st (.error (e, st) : Run F α) :=
  .error e (Walked.refl bounds extra st)

omit [PyFloat F] in
theorem Walks.pureRun {α : Type} (extra : ℕ) (st : State F) (x : Except Exn α) :
    Walks W bounds extra st (Skill.pureRun st x) := by
  cases x with
  | error e => exact .raise extra st e
  | ok a => exact .refl extra st a

omit [PyFloat F] in
/-- What runs next walks on, unless there is a reason not to. -/
theorem Walks.next {α β : Type} {extra k : ℕ} {st st₁ : State F} {a : α} {res : Run F β}
    (h : Walks W bounds extra st (.ok (a, st₁))) (h' : Walks W bounds k st₁ res)
    (hsame : st₁.reason ≠ none → ∀ p, res = .ok p → p.2 = st₁) : Walks W bounds (extra + k) st res := by
  obtain ⟨⟨n, hn⟩, hsettled⟩ := h
  obtain ⟨⟨n', hn'⟩, hsettled'⟩ := h'
  refine ⟨⟨n + n', hn.trans hn'⟩, fun q hq => ?_⟩
  by_cases hgo : st₁.reason = none
  · exact (hsettled _ rfl).trans (hsettled' q hq) hgo
  · rw [hsame hgo q hq]
    exact hsettled _ rfl

omit [PyFloat F] in
/-- What was raised is raised further. -/
theorem Walks.raised {α β : Type} {extra : ℕ} {st : State F} {e : Exn × State F} (extra' : ℕ)
    (h : Walks W bounds extra st (.error e : Run F α)) :
    Walks W bounds (extra + extra') st (.error e : Run F β) := by
  obtain ⟨⟨n, hn⟩, -⟩ := h
  exact .error e.1 (hn.trans (Walked.refl bounds extra' _))

omit [PyFloat F] in
theorem Walks.weaken {α : Type} {extra extra' : ℕ} {st : State F} {res : Run F α}
    (h : Walks W bounds extra st res) (hextra : extra ≤ extra') : Walks W bounds extra' st res := by
  obtain ⟨⟨n, hn⟩, hsettled⟩ := h
  refine ⟨⟨n, hn.trace, hn.stmt, hn.budget, ?_⟩, hsettled⟩
  have := hn.calls
  omega

omit [PyFloat F] in
/-- A guard that gives a reason, and a stop that was seen. -/
theorem Walks.cut {α : Type} (extra : ℕ) (st : State F) (a : α) (reason : Reason)
    (hstop : reason = .stopped → W.should_stop st.trace st.stmt = true) :
    Walks W bounds extra st (.ok (a, { st with reason := some reason })) := by
  refine .ok (n := 0) ⟨List.prefix_rfl, rfl, le_max_left _ _, ?_⟩ ⟨rfl, fun h => .inr ?_⟩
  · dsimp only
    omega
  · exact hstop (Option.some.inj h)

omit [PyFloat F] in
/-- A statement that is counted pays for its own calls. -/
theorem Walks.counted {α : Type} {st : State F} {res : Run F α} (hmax : st.stmt < bounds.max_statements)
    (h : Walks W bounds (bounds.max_loop + 1 + 0) { st with stmt := st.stmt + 1 } res) :
    Walks W bounds 0 st res := by
  obtain ⟨⟨n, hn⟩, hsettled⟩ := h
  refine ⟨⟨1 + n, hn.trace, ?_, ?_, ?_⟩, fun p hp => ⟨(hsettled p hp).actions, (hsettled p hp).stopped⟩⟩
  · rw [hn.stmt, Nat.add_assoc]
  · have hbudget := hn.budget
    dsimp only at hbudget
    omega
  · have hcalls := hn.calls
    rw [Nat.add_mul]
    dsimp only at hcalls
    omega

/-- A condition asks at most once. -/
theorem eval_cond_walks (bounds : Bounds) (env : Env F) (st : State F) : ∀ cond : Cond F,
    Walks W bounds 1 st (eval_cond B W env st cond)
  | .screen description => by
      rw [eval_cond]
      cases present description >>= subst B env with
      | error e => exact .raise 1 st e
      | ok v =>
          have hwalked : Walked bounds 0 1 st { st with trace := st.trace ++ [.check v] } :=
            ⟨List.prefix_append _ _, rfl, le_max_left _ _, by simp⟩
          dsimp only
          cases hanswer : W.check st.trace v with
          | none => exact .error .other hwalked
          | some answer => exact .ok hwalked ⟨by simp [executed], .inl⟩
  | .expr left right op => by
      rw [eval_cond]
      exact .pureRun 1 st _
  | .not cond => by
      have hcond := eval_cond_walks bounds env st cond
      rw [eval_cond]
      cases hres : eval_cond B W env st cond with
      | error e =>
          rw [hres] at hcond
          exact hcond.raised 0
      | ok p =>
          rw [hres] at hcond
          obtain ⟨answer, st₁⟩ := p
          refine hcond.next (.refl 0 st₁ _) fun _ q hq => ?_
          rw [← Except.ok.inj hq]
  | .unknown kind => .raise 1 st _
  | .bad => .raise 1 st _

/-- A condition says nothing of a reason. -/
theorem eval_cond_reason {env : Env F} {st st' : State F} {cond : Cond F} {answer : Bool}
    (h : eval_cond B W env st cond = .ok (answer, st')) : st'.reason = st.reason := by
  rcases eval_cond_spec (B := B) (W := W) env st cond with ⟨answer', t', -, heq⟩ | ⟨-, e, t', -, heq⟩
  · rw [heq] at h
    rw [← (Prod.mk.inj (Except.ok.inj h)).2]
  · rw [heq] at h
    cases h

/-- What runs a body walks, and does nothing once there is a reason to end. -/
def BodyWalks (W : Callbacks F) (bounds : Bounds) (run : Env F → State F → Run F (Env F)) : Prop :=
  ∀ env st, Walks W bounds 0 st (run env st) ∧
    (st.reason ≠ none → ∀ p, run env st = .ok p → p.2 = st)

omit [PyFloat F] in
theorem rounds_walks {bind : ℕ → Env F → Except Exn (Env F)} {run : Env F → State F → Run F (Env F)}
    (hrun : BodyWalks W bounds run) : ∀ left i env st, Walks W bounds 0 st (repeat_loop bind run left i env st)
  | 0, i, env, st => .refl 0 st env
  | left + 1, i, env, st => by
      rw [repeat_loop]
      cases bind i env with
      | error e => exact .raise 0 st e
      | ok env₁ =>
          have hbody := (hrun env₁ st).1
          dsimp only
          cases hres : run env₁ st with
          | error e =>
              rw [hres] at hbody
              exact hbody.raised 0
          | ok p =>
              rw [hres] at hbody
              obtain ⟨env₂, st₂⟩ := p
              dsimp only
              split_ifs with hreason
              · exact hbody
              · exact hbody.next (rounds_walks hrun left (i + 1) env₂ st₂) fun h => by simp [h] at hreason

/-- A `while` that may go round `left` times asks once more. -/
theorem loop_walks {cond : Cond F} {run : Env F → State F → Run F (Env F)} (hrun : BodyWalks W bounds run) :
    ∀ left env st, st.reason = none →
      Walks W bounds (left + 1) st (while_loop (fun env st => eval_cond B W env st cond) run left env st) := by
  intro left
  induction left with
  | zero =>
      intro env st hgo
      have hcond := eval_cond_walks (B := B) (W := W) bounds env st cond
      rw [while_loop]
      cases hres : eval_cond B W env st cond with
      | error e =>
          rw [hres] at hcond
          exact hcond.raised 0
      | ok p =>
          rw [hres] at hcond
          obtain ⟨answer, st₁⟩ := p
          have hgo₁ : st₁.reason = none := (eval_cond_reason hres).trans hgo
          cases answer with
          | false => exact hcond.next (.refl 0 st₁ env) fun h => absurd hgo₁ h
          | true => exact hcond.next (Walks.cut 0 st₁ env .limit (by rintro ⟨⟩)) fun h => absurd hgo₁ h
  | succ left ih =>
      intro env st hgo
      have hcond := eval_cond_walks (B := B) (W := W) bounds env st cond
      rw [while_loop, Nat.add_comm]
      cases hres : eval_cond B W env st cond with
      | error e =>
          rw [hres] at hcond
          exact hcond.raised (left + 1)
      | ok p =>
          rw [hres] at hcond
          obtain ⟨answer, st₁⟩ := p
          have hgo₁ : st₁.reason = none := (eval_cond_reason hres).trans hgo
          refine hcond.next (k := left + 1) ?_ fun h => absurd hgo₁ h
          cases answer with
          | false => exact .refl _ st₁ env
          | true =>
              have hbody := (hrun env st₁).1
              dsimp only
              cases hres' : run env st₁ with
              | error e =>
                  rw [hres'] at hbody
                  exact (hbody.raised (left + 1)).weaken (by omega)
              | ok q =>
                  rw [hres'] at hbody
                  obtain ⟨env₂, st₂⟩ := q
                  dsimp only
                  split_ifs with hreason
                  · exact hbody.weaken (Nat.zero_le _)
                  · have hgo₂ : st₂.reason = none := by simpa using hreason
                    exact (hbody.next (ih env₂ st₂ hgo₂) fun h => absurd hgo₂ h).weaken (by omega)

mutual

theorem stmt_walks {call : Caller F} (hcall : ∀ run, call = some run → ∀ b, BodyWalks W bounds (run b)) :
    ∀ (s : Stmt F) (env : Env F) (st : State F), st.reason = none →
      Walks W bounds (bounds.max_loop + 1) st (run_stmt B W bounds skills call s env st)
  | .action fields, env, st, hgo => by
      rw [run_stmt]
      cases subst_members B env fields with
      | error e => exact .raise _ st e
      | ok m =>
          have hcalls : (st.trace ++ [Call.execute (.obj m)]).length ≤
              st.trace.length + (bounds.max_loop + 1) + 0 * (bounds.max_loop + 1) := by simp
          dsimp only
          split_ifs with hexec
          · refine .ok ⟨List.prefix_append _ _, rfl, le_max_left _ _, hcalls⟩ ⟨?_, .inl⟩
            simp [executed]
            omega
          · exact .error .other ⟨List.prefix_append _ _, rfl, le_max_left _ _, hcalls⟩
  | .set var value, env, st, hgo => by
      rw [run_stmt]
      exact .pureRun _ st _
  | .incr var amount, env, st, hgo => by
      rw [run_stmt]
      exact .pureRun _ st _
  | .call skill args, env, st, hgo => by
      cases call with
      | none =>
          rw [run_stmt]
          exact .raise _ st _
      | some run =>
          rw [run_stmt]
          cases callee B skills env skill args with
          | error e => exact .raise _ st e
          | ok p =>
              obtain ⟨b, args⟩ := p
              have hbody := (hcall run rfl b args st).1
              dsimp only
              cases hres : run b args st with
              | error e =>
                  rw [hres] at hbody
                  exact (hbody.raised 0).weaken (Nat.zero_le _)
              | ok q =>
                  rw [hres] at hbody
                  obtain ⟨env₁, st₁⟩ := q
                  refine (hbody.next (.refl 0 st₁ env) fun _ q hq => ?_).weaken (Nat.zero_le _)
                  rw [← Except.ok.inj hq]
  | .ite cond thn els, env, st, hgo => by
      have hcond := eval_cond_walks (B := B) (W := W) bounds env st cond
      rw [run_stmt]
      cases hres : eval_cond B W env st cond with
      | error e =>
          rw [hres] at hcond
          exact (hcond.raised 0).weaken (Nat.succ_le_succ (Nat.zero_le _))
      | ok p =>
          rw [hres] at hcond
          obtain ⟨answer, st₁⟩ := p
          refine (hcond.next (k := 0) ?_ fun h => absurd ((eval_cond_reason hres).trans hgo) h).weaken
            (Nat.succ_le_succ (Nat.zero_le _))
          cases answer with
          | true => exact (body_walks hcall thn env st₁).1
          | false => exact (body_walks hcall els env st₁).1
  | .repeat_ count var body, env, st, hgo => by
      rw [run_stmt]
      cases countOf B env count with
      | error e => exact .raise _ st e
      | ok k => exact (rounds_walks (body_walks hcall body) _ 0 env st).weaken (Nat.zero_le _)
  | .while_ cond body, env, st, hgo => by
      rw [run_stmt]
      exact loop_walks (body_walks hcall body) _ env st hgo
  | .unknown op, env, st, hgo => by
      rw [run_stmt]
      exact .raise _ st _
  | .bad, env, st, hgo => by
      rw [run_stmt]
      exact .raise _ st _

theorem body_walks {call : Caller F} (hcall : ∀ run, call = some run → ∀ b, BodyWalks W bounds (run b)) :
    ∀ b : Body F, BodyWalks W bounds (run_body B W bounds skills call b)
  | .bad, env, st => by
      rw [run_body]
      exact ⟨.raise 0 st _, fun _ p hp => by cases hp⟩
  | .nil, env, st => by
      rw [run_body]
      refine ⟨.refl 0 st env, fun _ p hp => ?_⟩
      rw [← Except.ok.inj hp]
  | .cons s rest, env, st => by
      rw [run_body]
      split_ifs with hreason hstop hmax
      · refine ⟨.refl 0 st env, fun _ p hp => ?_⟩
        rw [← Except.ok.inj hp]
      · exact ⟨Walks.cut 0 st env .stopped fun _ => hstop, fun h => by simp [h] at hreason⟩
      · exact ⟨Walks.cut 0 st env .limit (by rintro ⟨⟩), fun h => by simp [h] at hreason⟩
      · have hgo : st.reason = none := by simpa using hreason
        have hstmt := stmt_walks hcall s env { st with stmt := st.stmt + 1 } hgo
        refine ⟨?_, fun h => absurd hgo h⟩
        cases hres : run_stmt B W bounds skills call s env { st with stmt := st.stmt + 1 } with
        | error e =>
            rw [hres] at hstmt
            exact Walks.counted (not_le.mp hmax) (hstmt.raised 0)
        | ok p =>
            rw [hres] at hstmt
            obtain ⟨env₁, st₁⟩ := p
            have hrest := body_walks hcall rest env₁ st₁
            exact Walks.counted (not_le.mp hmax) (hstmt.next hrest.1 hrest.2)

end

theorem caller_walks (skills : Skills F) : ∀ room run, caller B W bounds skills room = some run →
    ∀ b, BodyWalks W bounds (run b)
  | 0, run, h => by cases h
  | room + 1, run, h => by
      rw [caller] at h
      obtain rfl := Option.some.inj h
      exact fun b => body_walks (caller_walks skills room) b

/-! ## Whole runs -/

section

variable {library : Value F} {entry : String} {args : Env F}

/-- The body that a library has under a name. -/
def HasSkill (library : Value F) (entry : String) (skills : Skills F) (body : Body F) : Prop :=
  libraryOf library = some skills ∧ objGet skills entry = some (some body)

theorem run_skill_error {body : Body F} {e : Exn × State F} (h : HasSkill library entry skills body)
    (hbody : run_body B W bounds skills (caller B W bounds skills MAX_DEPTH) body args .start = .error e) :
    run_skill B W bounds library entry args = .error e := by
  simp only [run_skill, h.1, h.2, hbody]

theorem run_skill_ok {body : Body F} {env : Env F} {st : State F} (h : HasSkill library entry skills body)
    (hbody : run_body B W bounds skills (caller B W bounds skills MAX_DEPTH) body args .start = .ok (env, st)) :
    run_skill B W bounds library entry args = .ok (resultOf st, st) := by
  simp only [run_skill, h.1, h.2, hbody]

/-- A run that says it completed. -/
theorem run_skill_completed {result : SkillResult} {st : State F}
    (h : run_skill B W bounds library entry args = .ok (result, st)) (hcompleted : result.outcome = .completed) :
    ∃ skills body env, HasSkill library entry skills body ∧
      run_body B W bounds skills (caller B W bounds skills MAX_DEPTH) body args .start = .ok (env, st) ∧
      st.reason = none ∧ result = resultOf st := by
  cases hlibrary : libraryOf library with
  | none =>
      rw [run_skill, hlibrary] at h
      cases h
  | some skills =>
      cases hentry : objGet skills entry with
      | none =>
          rw [run_skill, hlibrary] at h
          dsimp only at h
          rw [hentry] at h
          cases h
      | some body? =>
          cases body? with
          | none =>
              rw [run_skill, hlibrary] at h
              dsimp only at h
              rw [hentry] at h
              cases h
          | some body =>
              cases hbody : run_body B W bounds skills (caller B W bounds skills MAX_DEPTH) body args .start with
              | error e =>
                  rw [run_skill_error ⟨hlibrary, hentry⟩ hbody] at h
                  cases h
              | ok p =>
                  obtain ⟨env, st₁⟩ := p
                  rw [run_skill_ok ⟨hlibrary, hentry⟩ hbody] at h
                  obtain ⟨rfl, rfl⟩ := Prod.mk.inj (Except.ok.inj h)
                  refine ⟨skills, body, env, ⟨hlibrary, hentry⟩, hbody, ?_, rfl⟩
                  rw [resultOf] at hcompleted
                  dsimp only at hcompleted
                  split at hcompleted
                  · assumption
                  · cases hcompleted
                  · cases hcompleted

/-- The run of a skill that means something, seen from outside. -/
theorem guarded_run {body : Body F} {env' : Env F} {t' : List (Call F)} {n r d : ℕ}
    (hexec : Exec B W skills bounds.max_loop (.body body) args [] n r d env' t') :
    Ended bounds MAX_DEPTH 0 0 0 n r d env' t'
      (run_body B W bounds skills (caller B W bounds skills MAX_DEPTH) body args .start) ∨
    Cut MAX_DEPTH d (bounds.max_statements < n ∨ bounds.max_loop < r) t'
      (run_body B W bounds skills (caller B W bounds skills MAX_DEPTH) body args .start) := by
  rcases guarded hexec 0 0 MAX_DEPTH 0 with hend | hcut
  · exact .inl hend
  · refine .inr (hcut.weaken List.prefix_rfl ?_ le_rfl)
    rw [Short, Nat.zero_add]
    exact .imp_right fun h => h.resolve_right (lt_irrefl 0)

omit [PyFloat F] in
theorem reason_of_stopped {st : State F} (h : (resultOf st).outcome = .stopped) : st.reason = some .stopped := by
  rw [resultOf] at h
  dsimp only at h
  split at h
  · cases h
  · assumption
  · cases h

theorem run_skill_walks (bounds : Bounds) (library : Value F) (entry : String) (args : Env F) :
    Walks W bounds 0 .start (run_skill B W bounds library entry args) ∧
    ∀ result st, run_skill B W bounds library entry args = .ok (result, st) → result = resultOf st := by
  rw [run_skill]
  split
  · exact ⟨.raise 0 _ _, fun _ _ h => by cases h⟩
  · next skills _ =>
      split
      · exact ⟨.raise 0 _ _, fun _ _ h => by cases h⟩
      · exact ⟨.raise 0 _ _, fun _ _ h => by cases h⟩
      · next body _ =>
          have hwalks : BodyWalks W bounds (run_body B W bounds skills (caller B W bounds skills MAX_DEPTH) body) :=
            body_walks (caller_walks skills MAX_DEPTH) body
          have hbody := (hwalks args .start).1
          cases hres : run_body B W bounds skills (caller B W bounds skills MAX_DEPTH) body args .start with
          | error e =>
              rw [hres] at hbody
              exact ⟨hbody.raised 0, fun _ _ h => by cases h⟩
          | ok p =>
              rw [hres] at hbody
              obtain ⟨env, st⟩ := p
              refine ⟨hbody.next (.refl 0 st _) fun _ q hq => ?_, fun result st' h => ?_⟩
              · rw [← Except.ok.inj hq]
              · obtain ⟨rfl, rfl⟩ := Prod.mk.inj (Except.ok.inj h)
                rfl

/-- **Every run is bounded**, whatever the library and the callbacks: it walks
so many statements, calls out so often, counts its actions, and after a stop
was seen it makes no call. -/
theorem run_skill_bounded (bounds : Bounds) (library : Value F) (entry : String) (args : Env F) :
    let res := run_skill B W bounds library entry args
    (stateOf res).stmt ≤ bounds.max_statements ∧
    (stateOf res).trace.length ≤ (stateOf res).stmt * (bounds.max_loop + 1) ∧
    ∀ result st, res = .ok (result, st) → result.statements = st.stmt ∧
      result.actions = executed st.trace ∧
      (result.outcome = .stopped → W.should_stop st.trace st.stmt = true) := by
  intro res
  have hwalks : Walks W bounds 0 .start res ∧ ∀ result st, res = .ok (result, st) → result = resultOf st :=
    run_skill_walks bounds library entry args
  obtain ⟨⟨⟨n, hn⟩, hsettled⟩, hresult⟩ := hwalks
  have hstmt : (stateOf res).stmt = n := hn.stmt.trans (Nat.zero_add n)
  refine ⟨hn.budget.trans (max_le (Nat.zero_le _) le_rfl), ?_, fun result st hres => ?_⟩
  · rw [hstmt]
    exact hn.calls.trans (le_of_eq (Nat.zero_add _))
  · obtain rfl := hresult result st hres
    have hactions := (hsettled _ hres).actions
    refine ⟨rfl, hactions.trans (Nat.zero_add _), fun houtcome => ?_⟩
    refine ((hsettled _ hres).stopped (reason_of_stopped houtcome)).resolve_left fun h => ?_
    cases h

end

end

/-! ## One skill -/

namespace OnePress

/-- The screen asks for one press. -/
def callbacks : Callbacks (Option Int) where
  execute _ _ := true
  check t _ := some t.isEmpty
  should_stop _ _ := false

def builtins : Builtins (Option Int) where
  str _ := ""
  repr _ := ""
  isWord := isLetter
  hash _ := none
  int _ := none
  int_float _ := none
  whole _ := none
  isZero f := f == some 0

def library : Value (Option Int) :=
  .obj [("main", .obj [("body", .arr [
      .obj [("op", .str "while"), ("cond", .obj [("kind", .str "screen"), ("description", .int 7)]),
        ("body", .arr [.obj [("op", .str "call"), ("skill", .str "press")]])]])]),
    ("press", .obj [("body", .arr [.obj [("op", .str "action"), ("button", .int 1)]])])]

def bounds : Bounds := ⟨8, 2⟩

def press : Body (Option Int) := .cons (.action [("button", .int 1)]) .nil

def main : Body (Option Int) :=
  .cons (.while_ (.screen (some (.int 7))) (.cons (.call (some (.str "press")) (.obj [])) .nil)) .nil

def skills : Skills (Option Int) := [("main", some main), ("press", some press)]

def trace : List (Call (Option Int)) := [.check (.int 7), .execute (.obj [("button", .int 1)]), .check (.int 7)]

theorem hasSkill : HasSkill library "main" skills main := ⟨by rfl, by rfl⟩

theorem exec_press {t : List (Call (Option Int))} : Exec builtins callbacks skills 2 (.body press) .empty t 1 0 0 .empty
    (t ++ [.execute (.obj [("button", .int 1)])]) :=
  .cons (.action rfl rfl) .nil

theorem exec_main : Exec builtins callbacks skills 2 (.body main) .empty [] 3 1 1 .empty trace := by
  have hcall : Exec builtins callbacks skills 2 (.body (.cons (.call (some (.str "press")) (.obj [])) .nil)) .empty
      [.check (.int 7)] 2 0 1 .empty [.check (.int 7), .execute (.obj [("button", .int 1)])] :=
    .cons (.call (by rfl) exec_press) .nil
  exact .cons (.while_ (.loop_more rfl hcall (.loop_done rfl))) .nil

theorem run_main : run_skill builtins callbacks bounds library "main" .empty =
    .ok (⟨.completed, 1, 3⟩, ⟨trace, 3, 1, none⟩) := by
  rfl

end OnePress

end Secdogie.Agent.Skill
