/-
# `Secdogie.Agent.SkillSemantics` — what a skill means, and what the guards cut

`Exec` is the meaning of a program: no budget of statements, no bound on a
`while`, no limit of the call stack and nobody to stop it.  A derivation counts
the statements it walks, the rounds of its `while` loops and how deep its calls
nest.  One bound is part of the language: a `repeat` goes round at most `cap`
times, and says nothing of it.

`guarded`: where the code means something, the interpreter ends with exactly
that and within its bounds, or it made the first calls of it and was cut; and it
is cut only if it was stopped or one of the counts exceeds its bound.
`body_meant`: what ends without a reason is what the code means.
-/
import Secdogie.Agent.Skill

namespace Secdogie.Agent.Skill

open Secdogie.Graph Secdogie.Identity

/-- What is run: a body, a statement, what is left of a `repeat`, and a `while`
that goes round so often. -/
inductive Code (F : Type) where
  | body (b : Body F)
  | stmt (s : Stmt F)
  | rounds (left i : ℕ) (var : Option (Value F)) (b : Body F)
  | loop (k : ℕ) (cond : Cond F) (b : Body F)

/-- The rounds of the `while` itself. -/
def Code.own {F : Type} : Code F → ℕ
  | .loop k _ _ => k
  | _ => 0

section

variable {F : Type} [PyFloat F] (B : Builtins F) (W : Callbacks F) (skills : Skills F) (cap : ℕ)

/-- The value of a condition, and the calls after it. -/
def Cond.eval (env : Env F) (t : List (Call F)) : Cond F → Option (Bool × List (Call F))
  | .screen description =>
      match present description >>= subst B env with
      | .error _ => none
      | .ok v => (W.check t v).map fun answer => (answer, t ++ [.check v])
  | .expr left right op =>
      match (do
        let left ← present left >>= subst B env
        let right ← present right >>= subst B env
        compare B left right op) with
      | .error _ => none
      | .ok answer => some (answer, t)
  | .not cond => (cond.eval env t).map fun r => (!r.1, r.2)
  | .unknown _ => none
  | .bad => none

/-- `Exec code env t n r d env' t'`: from the environment `env`, after the
calls `t`, the code ends with `env'` and `t'`.  It walks `n` statements, no
`while` in it goes round more than `r` times, and its calls nest `d` deep. -/
inductive Exec : Code F → Env F → List (Call F) → ℕ → ℕ → ℕ → Env F → List (Call F) → Prop where
  | nil {env t} : Exec (.body .nil) env t 0 0 0 env t
  | cons {s b env t n r d env₁ t₁ n' r' d' env₂ t₂} :
      Exec (.stmt s) env t n r d env₁ t₁ → Exec (.body b) env₁ t₁ n' r' d' env₂ t₂ →
      Exec (.body (.cons s b)) env t (1 + n + n') (max r r') (max d d') env₂ t₂
  | action {fields m env t} : subst_members B env fields = .ok m → W.execute t (.obj m) = true →
      Exec (.stmt (.action fields)) env t 0 0 0 env (t ++ [.execute (.obj m)])
  | set {var value env env' t} : set_var B env var value = .ok env' →
      Exec (.stmt (.set var value)) env t 0 0 0 env' t
  | incr {var amount env env' t} : incr_var B env var amount = .ok env' →
      Exec (.stmt (.incr var amount)) env t 0 0 0 env' t
  | call {skill args b env env₁ env₂ t n r d t'} : callee B skills env skill args = .ok (b, env₁) →
      Exec (.body b) env₁ t n r d env₂ t' → Exec (.stmt (.call skill args)) env t n r (d + 1) env t'
  | ite {cond thn els env t answer t₁ n r d env' t'} : cond.eval B W env t = some (answer, t₁) →
      Exec (.body (if answer then thn else els)) env t₁ n r d env' t' →
      Exec (.stmt (.ite cond thn els)) env t n r d env' t'
  | repeat_ {count var b env t k n r d env' t'} : countOf B env count = .ok k →
      Exec (.rounds (min k.toNat cap) 0 var b) env t n r d env' t' →
      Exec (.stmt (.repeat_ count var b)) env t n r d env' t'
  | rounds_done {i var b env t} : Exec (.rounds 0 i var b) env t 0 0 0 env t
  | rounds_more {left i var b env env₁ t n r d env₂ t₂ n' r' d' env₃ t₃} :
      bind_round B env var i = .ok env₁ → Exec (.body b) env₁ t n r d env₂ t₂ →
      Exec (.rounds left (i + 1) var b) env₂ t₂ n' r' d' env₃ t₃ →
      Exec (.rounds (left + 1) i var b) env t (n + n') (max r r') (max d d') env₃ t₃
  | while_ {k cond b env t n r d env' t'} : Exec (.loop k cond b) env t n r d env' t' →
      Exec (.stmt (.while_ cond b)) env t n (max k r) d env' t'
  | loop_done {cond b env t t₁} : cond.eval B W env t = some (false, t₁) →
      Exec (.loop 0 cond b) env t 0 0 0 env t₁
  | loop_more {k cond b env t t₁ n r d env₂ t₂ n' r' d' env₃ t₃} :
      cond.eval B W env t = some (true, t₁) → Exec (.body b) env t₁ n r d env₂ t₂ →
      Exec (.loop k cond b) env₂ t₂ n' r' d' env₃ t₃ →
      Exec (.loop (k + 1) cond b) env t (n + n') (max r r') (max d d') env₃ t₃

/-- The interpreter, on whatever code, with room for so many calls and so many
rounds left to a `while`. -/
def run_code (bounds : Bounds) (room left : ℕ) : Code F → Env F → State F → Run F (Env F)
  | .body b, env, st => run_body B W bounds skills (caller B W bounds skills room) b env st
  | .stmt s, env, st => run_stmt B W bounds skills (caller B W bounds skills room) s env st
  | .rounds n i var b, env, st =>
      repeat_loop (fun i env => bind_round B env var i)
        (fun env st => run_body B W bounds skills (caller B W bounds skills room) b env st) n i env st
  | .loop _ cond b, env, st =>
      while_loop (fun env st => eval_cond B W env st cond)
        (fun env st => run_body B W bounds skills (caller B W bounds skills room) b env st) left env st

end

/-! ## Conditions -/

section

variable {F : Type} [PyFloat F] {B : Builtins F} {W : Callbacks F} {skills : Skills F}

theorem Cond.eval_mono {env : Env F} {t t' : List (Call F)} : ∀ {cond : Cond F} {answer : Bool},
    cond.eval B W env t = some (answer, t') → t <+: t'
  | .screen description, answer, h => by
      rw [eval] at h
      cases hv : present description >>= subst B env with
      | error e => rw [hv] at h; cases h
      | ok v =>
          rw [hv] at h
          obtain ⟨a, -, heq⟩ := Option.map_eq_some_iff.mp h
          rw [← (Prod.mk.inj heq).2]
          exact List.prefix_append _ _
  | .expr left right op, answer, h => by
      rw [eval] at h
      split at h
      · cases h
      · rw [(Prod.mk.inj (Option.some.inj h)).2]
  | .not cond, answer, h => by
      rw [eval] at h
      obtain ⟨⟨a, t₁⟩, hr, heq⟩ := Option.map_eq_some_iff.mp h
      rw [← (Prod.mk.inj heq).2]
      exact eval_mono hr
  | .unknown kind, answer, h => by cases h
  | .bad, answer, h => by cases h

/-- The interpreter evaluates a condition as it is meant, or raises. -/
theorem eval_cond_spec (env : Env F) (st : State F) : ∀ cond : Cond F,
    (∃ answer t', cond.eval B W env st.trace = some (answer, t') ∧
      eval_cond B W env st cond = .ok (answer, { st with trace := t' })) ∨
    (cond.eval B W env st.trace = none ∧
      ∃ e t', st.trace <+: t' ∧ eval_cond B W env st cond = .error (e, { st with trace := t' }))
  | .screen description => by
      rw [Cond.eval, eval_cond]
      cases present description >>= subst B env with
      | error e => exact .inr ⟨rfl, e, st.trace, List.prefix_rfl, rfl⟩
      | ok v =>
          dsimp only
          cases hanswer : W.check st.trace v with
          | none => exact .inr ⟨rfl, .other, _, List.prefix_append _ _, rfl⟩
          | some answer => exact .inl ⟨answer, _, rfl, rfl⟩
  | .expr left right op => by
      rw [Cond.eval, eval_cond]
      generalize (do
        let left ← present left >>= subst B env
        let right ← present right >>= subst B env
        compare B left right op : Except Exn Bool) = x
      cases x with
      | error e => exact .inr ⟨rfl, e, st.trace, List.prefix_rfl, rfl⟩
      | ok answer => exact .inl ⟨answer, st.trace, rfl, rfl⟩
  | .not cond => by
      rw [Cond.eval, eval_cond]
      rcases eval_cond_spec env st cond with ⟨answer, t', heval, hrun⟩ | ⟨heval, e, t', hmono, hrun⟩
      · rw [heval, hrun]
        exact .inl ⟨!answer, t', rfl, rfl⟩
      · rw [heval, hrun]
        exact .inr ⟨rfl, e, t', hmono, rfl⟩
  | .unknown kind => .inr ⟨rfl, _, st.trace, List.prefix_rfl, rfl⟩
  | .bad => .inr ⟨rfl, _, st.trace, List.prefix_rfl, rfl⟩

/-! ## Guards only cut -/

variable {bounds : Bounds} {cap : ℕ}

theorem Exec.mono {code : Code F} {env env' : Env F} {t t' : List (Call F)} {n r d : ℕ}
    (h : Exec B W skills cap code env t n r d env' t') : t <+: t' := by
  induction h with
  | nil => exact List.prefix_rfl
  | cons _ _ ih₁ ih₂ => exact ih₁.trans ih₂
  | action _ _ => exact List.prefix_append _ _
  | set _ => exact List.prefix_rfl
  | incr _ => exact List.prefix_rfl
  | call _ _ ih => exact ih
  | ite hcond _ ih => exact (Cond.eval_mono hcond).trans ih
  | repeat_ _ _ ih => exact ih
  | rounds_done => exact List.prefix_rfl
  | rounds_more _ _ _ ih₁ ih₂ => exact ih₁.trans ih₂
  | while_ _ ih => exact ih
  | loop_done hcond => exact Cond.eval_mono hcond
  | loop_more hcond _ _ ih₁ ih₂ => exact (Cond.eval_mono hcond).trans (ih₁.trans ih₂)

/-- A bound that is short: of statements, of the rounds of a `while` within, or
of those left to the `while` itself. -/
def Short (bounds : Bounds) (left own total r : ℕ) : Prop :=
  bounds.max_statements < total ∨ bounds.max_loop < r ∨ left < own

/-- A run that was cut: it made the first of the calls `t`, and a guard is to
blame. -/
inductive Cut (room d : ℕ) (short : Prop) (t : List (Call F)) : Run F (Env F) → Prop where
  | depth {e st} : st.trace <+: t → room < d → Cut room d short t (.error (e, st))
  | stopped {env st} : st.trace <+: t → st.reason = some .stopped → Cut room d short t (.ok (env, st))
  | limit {env st} : st.trace <+: t → st.reason = some .limit → short → Cut room d short t (.ok (env, st))

omit [PyFloat F] in
theorem Cut.weaken {room d d' : ℕ} {short short' : Prop} {t t' : List (Call F)} {res : Run F (Env F)}
    (h : Cut room d short t res) (ht : t <+: t') (hshort : short → short') (hd : d ≤ d') :
    Cut room d' short' t' res := by
  cases h with
  | depth htrace hdepth => exact .depth (htrace.trans ht) (hdepth.trans_le hd)
  | stopped htrace hreason => exact .stopped (htrace.trans ht) hreason
  | limit htrace hreason hwhy => exact .limit (htrace.trans ht) hreason (hshort hwhy)

/-- A run that ended, did all that the code means, and fits the bounds. -/
def Ended (bounds : Bounds) (room left own stmt n r d : ℕ) (env : Env F) (t : List (Call F))
    (res : Run F (Env F)) : Prop :=
  (∃ actions, res = .ok (env, ⟨t, stmt + n, actions, none⟩)) ∧
    n ≤ bounds.max_statements - stmt ∧ r ≤ bounds.max_loop ∧ own ≤ left ∧ d ≤ room

omit [PyFloat F] in
/-- What follows a run that was cut, if it looks at the reason first. -/
theorem Cut.bind {room d : ℕ} {short : Prop} {t : List (Call F)} {res : Run F (Env F)}
    {next : Env F → State F → Run F (Env F)} :
    Cut room d short t res → (∀ env st, st.reason ≠ none → next env st = .ok (env, st)) →
    Cut room d short t (match res with
      | .error e => .error e
      | .ok (env, st) => next env st) := by
  intro h hnext
  cases h with
  | depth htrace hdepth => exact .depth htrace hdepth
  | @stopped env st htrace hreason =>
      dsimp only
      rw [hnext env st (by rw [hreason]; exact Option.some_ne_none _)]
      exact .stopped htrace hreason
  | @limit env st htrace hreason hwhy =>
      dsimp only
      rw [hnext env st (by rw [hreason]; exact Option.some_ne_none _)]
      exact .limit htrace hreason hwhy

omit [PyFloat F] in
/-- A call that was cut, for its caller. -/
theorem Cut.call {room d : ℕ} {short : Prop} {t : List (Call F)} {res : Run F (Env F)} (env : Env F) :
    Cut room d short t res → Cut (room + 1) (d + 1) short t (match res with
      | .error e => .error e
      | .ok (_, st) => .ok (env, st)) := by
  intro h
  cases h with
  | depth htrace hdepth => exact .depth htrace (Nat.succ_lt_succ hdepth)
  | stopped htrace hreason => exact .stopped htrace hreason
  | limit htrace hreason hwhy => exact .limit htrace hreason hwhy

/-- A body that means something does nothing once there is a reason to end. -/
theorem Exec.run_body_of_reason {b : Body F} {env env' : Env F} {t t' : List (Call F)} {n r d : ℕ}
    (h : Exec B W skills cap (.body b) env t n r d env' t') (call : Caller F) (env₁ : Env F) (st : State F)
    (hreason : st.reason ≠ none) : run_body B W bounds skills call b env₁ st = .ok (env₁, st) := by
  cases h with
  | nil => rw [run_body]
  | cons _ _ => rw [run_body, if_pos (Option.isSome_iff_ne_none.mpr hreason)]

/-- The run of a piece of code that means something. -/
def Guarded (B : Builtins F) (W : Callbacks F) (skills : Skills F) (bounds : Bounds) (code : Code F)
    (env : Env F) (t : List (Call F)) (n r d : ℕ) (env' : Env F) (t' : List (Call F)) : Prop :=
  ∀ stmt actions room left,
    Ended bounds room left code.own stmt n r d env' t'
      (run_code B W skills bounds room left code env ⟨t, stmt, actions, none⟩) ∨
    Cut room d (Short bounds left code.own (stmt + n) r) t'
      (run_code B W skills bounds room left code env ⟨t, stmt, actions, none⟩)

theorem guarded_body {s : Stmt F} {b : Body F} {env env₁ env₂ : Env F} {t t₁ t₂ : List (Call F)}
    {n r d n' r' d' : ℕ} (hstmt : Exec B W skills bounds.max_loop (.stmt s) env t n r d env₁ t₁)
    (hbody : Exec B W skills bounds.max_loop (.body b) env₁ t₁ n' r' d' env₂ t₂)
    (ih₁ : Guarded B W skills bounds (.stmt s) env t n r d env₁ t₁)
    (ih₂ : Guarded B W skills bounds (.body b) env₁ t₁ n' r' d' env₂ t₂) :
    Guarded B W skills bounds (.body (.cons s b)) env t (1 + n + n') (max r r') (max d d') env₂ t₂ := by
  intro stmt actions room left
  have hmono := hstmt.mono.trans hbody.mono
  rw [run_code, run_body]
  dsimp only
  rw [Option.isSome_none, if_neg Bool.false_ne_true]
  split_ifs with hstop hmax
  · exact .inr (.stopped hmono rfl)
  · exact .inr (.limit hmono rfl (.inl (by omega)))
  · rcases ih₁ (stmt + 1) actions room left with ⟨⟨actions₁, hres⟩, hn, hr, -, hd⟩ | hcut
    · rw [run_code] at hres
      rw [hres]
      dsimp only
      have htotal : stmt + 1 + n + n' = stmt + (1 + n + n') := by omega
      rcases ih₂ (stmt + 1 + n) actions₁ room left with ⟨hend, hn', hr', -, hd'⟩ | hcut
      · rw [run_code, htotal] at hend
        exact .inl ⟨hend, by omega, max_le hr hr', Nat.zero_le _, max_le hd hd'⟩
      · rw [run_code, htotal] at hcut
        exact .inr (hcut.weaken List.prefix_rfl (.imp_right (.imp_left lt_max_of_lt_right)) (le_max_right _ _))
    · rw [run_code] at hcut
      refine .inr (Cut.bind ?_ fun env st hreason => hbody.run_body_of_reason _ env st hreason)
      refine hcut.weaken hbody.mono (.imp (fun h => ?_) (.imp_left lt_max_of_lt_left)) (le_max_left _ _)
      omega

theorem guarded_rounds {left₀ i : ℕ} {var : Option (Value F)} {b : Body F} {env env₁ env₂ env₃ : Env F}
    {t t₂ t₃ : List (Call F)} {n r d n' r' d' : ℕ} (hbind : bind_round B env var i = .ok env₁)
    (hrest : Exec B W skills bounds.max_loop (.rounds left₀ (i + 1) var b) env₂ t₂ n' r' d' env₃ t₃)
    (ih₁ : Guarded B W skills bounds (.body b) env₁ t n r d env₂ t₂)
    (ih₂ : Guarded B W skills bounds (.rounds left₀ (i + 1) var b) env₂ t₂ n' r' d' env₃ t₃) :
    Guarded B W skills bounds (.rounds (left₀ + 1) i var b) env t (n + n') (max r r') (max d d') env₃ t₃ := by
  intro stmt actions room left
  rw [run_code, repeat_loop, hbind]
  dsimp only
  rcases ih₁ stmt actions room left with ⟨⟨actions₁, hres⟩, hn, hr, -, hd⟩ | hcut
  · rw [run_code] at hres
    rw [hres]
    dsimp only
    rw [Option.isSome_none, if_neg Bool.false_ne_true]
    have htotal : stmt + n + n' = stmt + (n + n') := by omega
    rcases ih₂ (stmt + n) actions₁ room left with ⟨hend, hn', hr', -, hd'⟩ | hcut
    · rw [run_code, htotal] at hend
      exact .inl ⟨hend, by omega, max_le hr hr', Nat.zero_le _, max_le hd hd'⟩
    · rw [run_code, htotal] at hcut
      exact .inr (hcut.weaken List.prefix_rfl (.imp_right (.imp_left lt_max_of_lt_right)) (le_max_right _ _))
  · rw [run_code] at hcut
    refine .inr (Cut.bind ?_ fun env st hreason => if_pos (Option.isSome_iff_ne_none.mpr hreason))
    refine hcut.weaken hrest.mono (.imp (fun h => ?_) (.imp_left lt_max_of_lt_left)) (le_max_left _ _)
    omega

/-- What a condition that means something answers. -/
theorem eval_cond_of_eval {env : Env F} {t t' : List (Call F)} {cond : Cond F} {answer : Bool}
    (h : cond.eval B W env t = some (answer, t')) (stmt actions : ℕ) (reason : Option Reason) :
    eval_cond B W env ⟨t, stmt, actions, reason⟩ cond = .ok (answer, ⟨t', stmt, actions, reason⟩) := by
  rcases eval_cond_spec (B := B) (W := W) env ⟨t, stmt, actions, reason⟩ cond with
    ⟨answer', t₁, heval, heq⟩ | ⟨heval, -⟩
  · obtain ⟨rfl, rfl⟩ := Prod.mk.inj (Option.some.inj (h.symm.trans heval))
    exact heq
  · rw [h] at heval
    cases heval

theorem guarded_loop {k : ℕ} {cond : Cond F} {b : Body F} {env env₂ env₃ : Env F}
    {t t₁ t₂ t₃ : List (Call F)} {n r d n' r' d' : ℕ} (hcond : cond.eval B W env t = some (true, t₁))
    (hbody : Exec B W skills bounds.max_loop (.body b) env t₁ n r d env₂ t₂)
    (hrest : Exec B W skills bounds.max_loop (.loop k cond b) env₂ t₂ n' r' d' env₃ t₃)
    (ih₁ : Guarded B W skills bounds (.body b) env t₁ n r d env₂ t₂)
    (ih₂ : Guarded B W skills bounds (.loop k cond b) env₂ t₂ n' r' d' env₃ t₃) :
    Guarded B W skills bounds (.loop (k + 1) cond b) env t (n + n') (max r r') (max d d') env₃ t₃ := by
  intro stmt actions room left
  rw [run_code, while_loop, eval_cond_of_eval hcond]
  dsimp only
  cases left with
  | zero => exact .inr (.limit (hbody.mono.trans hrest.mono) rfl (.inr (.inr (Nat.succ_pos k))))
  | succ left =>
      dsimp only
      rcases ih₁ stmt actions room left with ⟨⟨actions₁, hres⟩, hn, hr, -, hd⟩ | hcut
      · rw [run_code] at hres
        rw [hres]
        dsimp only
        rw [Option.isSome_none, if_neg Bool.false_ne_true]
        have htotal : stmt + n + n' = stmt + (n + n') := by omega
        rcases ih₂ (stmt + n) actions₁ room left with ⟨hend, hn', hr', hown, hd'⟩ | hcut
        · rw [run_code, htotal] at hend
          exact .inl ⟨hend, by omega, max_le hr hr', Nat.succ_le_succ hown, max_le hd hd'⟩
        · rw [run_code, htotal] at hcut
          exact .inr (hcut.weaken List.prefix_rfl
            (.imp_right (.imp lt_max_of_lt_right Nat.succ_lt_succ)) (le_max_right _ _))
      · rw [run_code] at hcut
        refine .inr (Cut.bind ?_ fun env st hreason => if_pos (Option.isSome_iff_ne_none.mpr hreason))
        refine hcut.weaken hrest.mono (.imp (fun h => ?_) (.imp lt_max_of_lt_left fun h => ?_)) (le_max_left _ _)
        · omega
        · cases h

theorem guarded {code : Code F} {env env' : Env F} {t t' : List (Call F)} {n r d : ℕ}
    (h : Exec B W skills bounds.max_loop code env t n r d env' t') :
    Guarded B W skills bounds code env t n r d env' t' := by
  induction h with
  | nil =>
      intro stmt actions room left
      rw [run_code, run_body]
      exact .inl ⟨⟨actions, rfl⟩, Nat.zero_le _, Nat.zero_le _, Nat.zero_le _, Nat.zero_le _⟩
  | cons hstmt hbody ih₁ ih₂ => exact guarded_body hstmt hbody ih₁ ih₂
  | @action fields m env t hfields hexec =>
      intro stmt actions room left
      rw [run_code, run_stmt, hfields]
      dsimp only
      rw [if_pos hexec]
      exact .inl ⟨⟨actions + 1, rfl⟩, Nat.zero_le _, Nat.zero_le _, Nat.zero_le _, Nat.zero_le _⟩
  | set hset =>
      intro stmt actions room left
      rw [run_code, run_stmt, hset]
      exact .inl ⟨⟨actions, rfl⟩, Nat.zero_le _, Nat.zero_le _, Nat.zero_le _, Nat.zero_le _⟩
  | incr hincr =>
      intro stmt actions room left
      rw [run_code, run_stmt, hincr]
      exact .inl ⟨⟨actions, rfl⟩, Nat.zero_le _, Nat.zero_le _, Nat.zero_le _, Nat.zero_le _⟩
  | @call skill args b env env₁ env₂ t n r d t' hcallee hbody ih =>
      intro stmt actions room left
      cases room with
      | zero =>
          rw [run_code, caller, run_stmt]
          exact .inr (.depth hbody.mono (Nat.succ_pos d))
      | succ room =>
          rw [run_code, caller, run_stmt, hcallee]
          dsimp only
          rcases ih stmt actions room left with ⟨⟨actions₁, hres⟩, hn, hr, -, hd⟩ | hcut
          · rw [run_code] at hres
            rw [hres]
            exact .inl ⟨⟨actions₁, rfl⟩, hn, hr, Nat.zero_le _, Nat.succ_le_succ hd⟩
          · rw [run_code] at hcut
            exact .inr (hcut.call env)
  | @ite cond thn els env t answer t₁ n r d env' t' hcond _ ih =>
      intro stmt actions room left
      have hrun := ih stmt actions room left
      rw [run_code, run_stmt, eval_cond_of_eval hcond]
      cases answer with
      | true => exact hrun
      | false => exact hrun
  | repeat_ hcount _ ih =>
      intro stmt actions room left
      rw [run_code, run_stmt, hcount]
      exact ih stmt actions room left
  | rounds_done =>
      intro stmt actions room left
      rw [run_code, repeat_loop]
      exact .inl ⟨⟨actions, rfl⟩, Nat.zero_le _, Nat.zero_le _, Nat.zero_le _, Nat.zero_le _⟩
  | rounds_more hbind _ hrest ih₁ ih₂ => exact guarded_rounds hbind hrest ih₁ ih₂
  | while_ _ ih =>
      -- here the rounds that were the loop's own become a bound of the code around it
      intro stmt actions room left
      rcases ih stmt actions room bounds.max_loop with ⟨hend, hn, hr, hown, hd⟩ | hcut
      · rw [run_code] at hend
        rw [run_code, run_stmt]
        exact .inl ⟨hend, hn, max_le hown hr, Nat.zero_le _, hd⟩
      · rw [run_code] at hcut
        rw [run_code, run_stmt]
        refine .inr (hcut.weaken List.prefix_rfl (.imp_right fun h => .inl ?_) le_rfl)
        exact lt_max_iff.mpr h.symm
  | loop_done hcond =>
      intro stmt actions room left
      rw [run_code, while_loop, eval_cond_of_eval hcond]
      exact .inl ⟨⟨actions, rfl⟩, Nat.zero_le _, Nat.zero_le _, Nat.zero_le _, Nat.zero_le _⟩
  | loop_more hcond hbody hrest ih₁ ih₂ => exact guarded_loop hcond hbody hrest ih₁ ih₂

/-! ## What completes is meant -/

/-- A body that ends with a reason it started with. -/
theorem run_body_reason {call : Caller F} {b : Body F} {env env' : Env F} {st st' : State F}
    (h : run_body B W bounds skills call b env st = .ok (env', st')) (hreason : st.reason ≠ none) :
    st'.reason = st.reason := by
  cases b with
  | bad => rw [run_body] at h; cases h
  | nil =>
      rw [run_body] at h
      rw [(Prod.mk.inj (Except.ok.inj h)).2]
  | cons s rest =>
      rw [run_body, if_pos (Option.isSome_iff_ne_none.mpr hreason)] at h
      rw [(Prod.mk.inj (Except.ok.inj h)).2]

/-- The code means what leads from here to there. -/
def Meant (B : Builtins F) (W : Callbacks F) (skills : Skills F) (bounds : Bounds) (code : Code F)
    (env : Env F) (st : State F) (env' : Env F) (st' : State F) : Prop :=
  ∃ n r d, Exec B W skills bounds.max_loop code env st.trace n r d env' st'.trace

/-- Whatever ends without a reason did what the code means. -/
def CompletesMeant (B : Builtins F) (W : Callbacks F) (skills : Skills F) (bounds : Bounds) (code : Code F)
    (run : Env F → State F → Run F (Env F)) : Prop :=
  ∀ env st env' st', st.reason = none → run env st = .ok (env', st') → st'.reason = none →
    Meant B W skills bounds code env st env' st'

theorem rounds_meant {var : Option (Value F)} {b : Body F}
    {run : Env F → State F → Run F (Env F)} (hrun : CompletesMeant B W skills bounds (.body b) run) :
    ∀ left i, CompletesMeant B W skills bounds (.rounds left i var b)
      (repeat_loop (fun i env => bind_round B env var i) run left i)
  | 0, i, env, st, env', st', _, h, _ => by
      rw [repeat_loop] at h
      obtain ⟨rfl, rfl⟩ := Prod.mk.inj (Except.ok.inj h)
      exact ⟨0, 0, 0, .rounds_done⟩
  | left + 1, i, env, st, env', st', hst, h, hst' => by
      rw [repeat_loop] at h
      cases hbind : bind_round B env var i with
      | error e => rw [hbind] at h; cases h
      | ok env₁ =>
          rw [hbind] at h
          dsimp only at h
          cases hbody : run env₁ st with
          | error e => rw [hbody] at h; cases h
          | ok p =>
              obtain ⟨env₂, st₂⟩ := p
              rw [hbody] at h
              dsimp only at h
              split_ifs at h with hreason
              · obtain ⟨-, rfl⟩ := Prod.mk.inj (Except.ok.inj h)
                rw [hst'] at hreason
                cases hreason
              · have hnone : st₂.reason = none := by simpa using hreason
                obtain ⟨n, r, d, hexec⟩ := hrun env₁ st env₂ st₂ hst hbody hnone
                obtain ⟨n', r', d', hexec'⟩ := rounds_meant hrun left (i + 1) env₂ st₂ env' st' hnone h hst'
                exact ⟨n + n', max r r', max d d', .rounds_more hbind hexec hexec'⟩

theorem loop_meant {cond : Cond F} {b : Body F} {run : Env F → State F → Run F (Env F)}
    (hrun : CompletesMeant B W skills bounds (.body b) run) : ∀ left env st env' st', st.reason = none →
      while_loop (fun env st => eval_cond B W env st cond) run left env st = .ok (env', st') →
      st'.reason = none → ∃ k, Meant B W skills bounds (.loop k cond b) env st env' st' := by
  intro left
  induction left with
  | zero =>
      intro env st env' st' hst h hst'
      rw [while_loop] at h
      rcases eval_cond_spec (B := B) (W := W) env st cond with ⟨answer, t', heval, heq⟩ | ⟨-, e, t', -, heq⟩
      · rw [heq] at h
        cases answer with
        | true =>
            obtain ⟨-, rfl⟩ := Prod.mk.inj (Except.ok.inj h)
            cases hst'
        | false =>
            obtain ⟨rfl, rfl⟩ := Prod.mk.inj (Except.ok.inj h)
            exact ⟨0, 0, 0, 0, .loop_done heval⟩
      · rw [heq] at h
        cases h
  | succ left ih =>
      intro env st env' st' hst h hst'
      rw [while_loop] at h
      rcases eval_cond_spec (B := B) (W := W) env st cond with ⟨answer, t', heval, heq⟩ | ⟨-, e, t', -, heq⟩
      · rw [heq] at h
        cases answer with
        | false =>
            obtain ⟨rfl, rfl⟩ := Prod.mk.inj (Except.ok.inj h)
            exact ⟨0, 0, 0, 0, .loop_done heval⟩
        | true =>
            dsimp only at h
            cases hbody : run env { st with trace := t' } with
            | error e => rw [hbody] at h; cases h
            | ok p =>
                obtain ⟨env₂, st₂⟩ := p
                rw [hbody] at h
                dsimp only at h
                split_ifs at h with hreason
                · obtain ⟨-, rfl⟩ := Prod.mk.inj (Except.ok.inj h)
                  rw [hst'] at hreason
                  cases hreason
                · have hnone : st₂.reason = none := by simpa using hreason
                  obtain ⟨n, r, d, hexec⟩ := hrun env { st with trace := t' } env₂ st₂ hst hbody hnone
                  obtain ⟨k, n', r', d', hexec'⟩ := ih env₂ st₂ env' st' hnone h hst'
                  exact ⟨k + 1, n + n', max r r', max d d', .loop_more heval hexec hexec'⟩
      · rw [heq] at h
        cases h

/-- The caller runs bodies as they are meant. -/
def CallerMeant (B : Builtins F) (W : Callbacks F) (skills : Skills F) (bounds : Bounds) (call : Caller F) :
    Prop :=
  ∀ run, call = some run → ∀ b, CompletesMeant B W skills bounds (.body b) (run b)

mutual

theorem stmt_meant {call : Caller F} (hcall : CallerMeant B W skills bounds call) :
    ∀ s : Stmt F, CompletesMeant B W skills bounds (.stmt s) (run_stmt B W bounds skills call s)
  | .action fields, env, st, env', st', hst, h, hst' => by
      rw [run_stmt] at h
      cases hfields : subst_members B env fields with
      | error e => rw [hfields] at h; cases h
      | ok m =>
          rw [hfields] at h
          dsimp only at h
          split_ifs at h with hexec
          obtain ⟨rfl, rfl⟩ := Prod.mk.inj (Except.ok.inj h)
          exact ⟨0, 0, 0, .action hfields hexec⟩
  | .set var value, env, st, env', st', hst, h, hst' => by
      rw [run_stmt] at h
      cases hset : set_var B env var value with
      | error e => rw [hset] at h; cases h
      | ok env₁ =>
          rw [hset] at h
          obtain ⟨rfl, rfl⟩ := Prod.mk.inj (Except.ok.inj h)
          exact ⟨0, 0, 0, .set hset⟩
  | .incr var amount, env, st, env', st', hst, h, hst' => by
      rw [run_stmt] at h
      cases hincr : incr_var B env var amount with
      | error e => rw [hincr] at h; cases h
      | ok env₁ =>
          rw [hincr] at h
          obtain ⟨rfl, rfl⟩ := Prod.mk.inj (Except.ok.inj h)
          exact ⟨0, 0, 0, .incr hincr⟩
  | .call skill args, env, st, env', st', hst, h, hst' => by
      cases call with
      | none => rw [run_stmt] at h; cases h
      | some run =>
          rw [run_stmt] at h
          cases hcallee : callee B skills env skill args with
          | error e => rw [hcallee] at h; cases h
          | ok p =>
              obtain ⟨b, env₁⟩ := p
              rw [hcallee] at h
              dsimp only at h
              cases hbody : run b env₁ st with
              | error e => rw [hbody] at h; cases h
              | ok q =>
                  obtain ⟨env₂, st₂⟩ := q
                  rw [hbody] at h
                  obtain ⟨rfl, rfl⟩ := Prod.mk.inj (Except.ok.inj h)
                  obtain ⟨n, r, d, hexec⟩ := hcall run rfl b env₁ st env₂ st₂ hst hbody hst'
                  exact ⟨n, r, d + 1, .call hcallee hexec⟩
  | .ite cond thn els, env, st, env', st', hst, h, hst' => by
      rw [run_stmt] at h
      rcases eval_cond_spec (B := B) (W := W) env st cond with ⟨answer, t', heval, heq⟩ | ⟨-, e, t', -, heq⟩
      · rw [heq] at h
        cases answer with
        | true =>
            obtain ⟨n, r, d, hexec⟩ := body_meant hcall thn env { st with trace := t' } env' st' hst h hst'
            exact ⟨n, r, d, .ite heval hexec⟩
        | false =>
            obtain ⟨n, r, d, hexec⟩ := body_meant hcall els env { st with trace := t' } env' st' hst h hst'
            exact ⟨n, r, d, .ite heval hexec⟩
      · rw [heq] at h
        cases h
  | .repeat_ count var body, env, st, env', st', hst, h, hst' => by
      rw [run_stmt] at h
      cases hcount : countOf B env count with
      | error e => rw [hcount] at h; cases h
      | ok k =>
          rw [hcount] at h
          obtain ⟨n, r, d, hexec⟩ := rounds_meant (body_meant hcall body) _ 0 env st env' st' hst h hst'
          exact ⟨n, r, d, .repeat_ hcount hexec⟩
  | .while_ cond body, env, st, env', st', hst, h, hst' => by
      rw [run_stmt] at h
      obtain ⟨k, n, r, d, hexec⟩ := loop_meant (body_meant hcall body) _ env st env' st' hst h hst'
      exact ⟨n, max k r, d, .while_ hexec⟩
  | .unknown op, env, st, env', st', hst, h, hst' => by
      rw [run_stmt] at h
      cases h
  | .bad, env, st, env', st', hst, h, hst' => by
      rw [run_stmt] at h
      cases h

theorem body_meant {call : Caller F} (hcall : CallerMeant B W skills bounds call) :
    ∀ b : Body F, CompletesMeant B W skills bounds (.body b) (run_body B W bounds skills call b)
  | .bad, env, st, env', st', hst, h, hst' => by
      rw [run_body] at h
      cases h
  | .nil, env, st, env', st', hst, h, hst' => by
      rw [run_body] at h
      obtain ⟨rfl, rfl⟩ := Prod.mk.inj (Except.ok.inj h)
      exact ⟨0, 0, 0, .nil⟩
  | .cons s rest, env, st, env', st', hst, h, hst' => by
      rw [run_body, if_neg (by rw [hst]; exact Bool.false_ne_true)] at h
      split_ifs at h with hstop hmax
      · obtain ⟨-, rfl⟩ := Prod.mk.inj (Except.ok.inj h)
        cases hst'
      · obtain ⟨-, rfl⟩ := Prod.mk.inj (Except.ok.inj h)
        cases hst'
      · cases hstmt : run_stmt B W bounds skills call s env { st with stmt := st.stmt + 1 } with
        | error e => rw [hstmt] at h; cases h
        | ok p =>
            obtain ⟨env₁, st₁⟩ := p
            rw [hstmt] at h
            dsimp only at h
            have hst₁ : st₁.reason = none := by
              by_contra hreason
              exact absurd (run_body_reason h hreason) (by rw [hst']; exact fun heq => hreason heq.symm)
            obtain ⟨n, r, d, hexec⟩ :=
              stmt_meant hcall s env { st with stmt := st.stmt + 1 } env₁ st₁ hst hstmt hst₁
            obtain ⟨n', r', d', hexec'⟩ := body_meant hcall rest env₁ st₁ env' st' hst₁ h hst'
            exact ⟨1 + n + n', max r r', max d d', .cons hexec hexec'⟩

end

theorem caller_meant (skills : Skills F) : ∀ room, CallerMeant B W skills bounds (caller B W bounds skills room)
  | 0, run, h => by cases h
  | room + 1, run, h => by
      rw [caller] at h
      obtain rfl := Option.some.inj h
      exact fun b => body_meant (caller_meant skills room) b

end

end Secdogie.Agent.Skill
