/-
# `Secdogie.Agent.Skill` — programmable skills

A skill is a small program: actions, variables, conditions, loops and calls of
other skills.  This is the interpreter as the source has it, over the program
that `decode` reads from JSON: what is malformed is kept where it stands and
raises when it is reached.  Callbacks answer by what was called before, so that
any answers at all can be given.
-/
import Secdogie.Lib.OrderedDict
import Secdogie.Identity.Num

namespace Secdogie.Agent.Skill

open Secdogie.Graph Secdogie.Identity

/-- The limit of the call stack. -/
def MAX_DEPTH : ℕ := 32

inductive Exn where
  | skill_error (text : String)
  /-- anything else that Python raises -/
  | other

/-- A dictionary key: a name, or another hashable value. -/
inductive Key where
  | name (s : String)
  | other (n : ℕ)
deriving DecidableEq

structure Builtins (F : Type) where
  str : Value F → String
  repr : Value F → String
  /-- `\w` -/
  isWord : Char → Bool
  /-- of the values that are not text, which one it is; `none` if it is unhashable -/
  hash : Value F → Option ℕ
  /-- `int(v)` of what is not text; `none` when it raises -/
  int : Value F → Option ℤ
  /-- `int(float(text))` -/
  int_float : String → Option ℤ
  /-- `int(f)` if `f` equals it; `none` when `int(f)` raises -/
  whole : F → Option (Option ℤ)
  isZero : F → Bool

section

variable {F : Type}

/-! ## Programs -/

inductive Cond (F : Type) where
  | screen (description : Option (Value F))
  | expr (left right : Option (Value F)) (op : Value F)
  | not (cond : Cond F)
  | unknown (kind : Value F)
  /-- not a dictionary -/
  | bad

mutual

inductive Stmt (F : Type) where
  | action (fields : List (String × Value F))
  | set (var value : Option (Value F))
  | incr (var : Option (Value F)) (amount : Value F)
  | call (skill : Option (Value F)) (args : Value F)
  | ite (cond : Cond F) (thn els : Body F)
  | repeat_ (count var : Option (Value F)) (body : Body F)
  | while_ (cond : Cond F) (body : Body F)
  | unknown (op : Value F)
  /-- not a dictionary -/
  | bad

inductive Body (F : Type) where
  | nil
  | cons (stmt : Stmt F) (rest : Body F)
  /-- nothing that can be iterated -/
  | bad

end

/-- A JSON value, taken as a statement, as a body and as a condition. -/
structure Decoded (F : Type) where
  stmt : Stmt F := .bad
  body : Body F := .bad
  cond : Cond F := .bad

/-- `v.get(name, [])`, as a body -/
def bodyAt (name : String) (ms : List (String × Decoded F)) : Body F :=
  ((objGet ms name).map (·.body)).getD .nil

/-- `v[name]`, as a condition -/
def condAt (name : String) (ms : List (String × Decoded F)) : Cond F :=
  ((objGet ms name).map (·.cond)).getD .bad

def stmtOf (m : List (String × Value F)) (ms : List (String × Decoded F)) : Stmt F :=
  let op := (objGet m "op").getD .null
  if op.asStr = some "action" then .action (m.filter (fun e => e.1 != "op"))
  else if op.asStr = some "set" then .set (objGet m "var") (objGet m "value")
  else if op.asStr = some "incr" then .incr (objGet m "var") ((objGet m "by").getD (.int 1))
  else if op.asStr = some "call" then .call (objGet m "skill") ((objGet m "args").getD (.obj []))
  else if op.asStr = some "if" then .ite (condAt "cond" ms) (bodyAt "then" ms) (bodyAt "else" ms)
  else if op.asStr = some "repeat" then .repeat_ (objGet m "count") (objGet m "var") (bodyAt "body" ms)
  else if op.asStr = some "while" then .while_ (condAt "cond" ms) (bodyAt "body" ms)
  else .unknown op

def condOf (m : List (String × Value F)) (ms : List (String × Decoded F)) : Cond F :=
  let kind := (objGet m "kind").getD .null
  if kind.asStr = some "screen" then .screen (objGet m "description")
  else if kind.asStr = some "expr" then
    .expr (objGet m "left") (objGet m "right") ((objGet m "op").getD (.str "=="))
  else if kind.asStr = some "not" then .not (condAt "cond" ms)
  else .unknown kind

mutual

def decode : Value F → Decoded F
  | .obj m =>
      let ms := decodeMembers m
      { stmt := stmtOf m ms
        body := m.foldr (fun _ rest => .cons .bad rest) .nil
        cond := condOf m ms }
  | .arr vs => { body := decodeItems vs }
  | .str s => { body := s.toList.foldr (fun _ rest => .cons .bad rest) .nil }
  | _ => {}

def decodeItems : List (Value F) → Body F
  | [] => .nil
  | v :: vs => .cons (decode v).stmt (decodeItems vs)

def decodeMembers : List (String × Value F) → List (String × Decoded F)
  | [] => []
  | (k, v) :: ms => (k, decode v) :: decodeMembers ms

end

/-- The bodies of the skills; `none` for a skill that is not a dictionary. -/
abbrev Skills (F : Type) := List (String × Option (Body F))

def skillsOf (m : List (String × Value F)) : Skills F :=
  m.map fun e => (e.1, e.2.asObj.map (fun skill => bodyAt "body" (decodeMembers skill)))

/-! ## Values -/

abbrev Env (F : Type) := OrderedDict Key (Value F)

def isLetter (c : Char) : Bool :=
  ('a' ≤ c && c ≤ 'z') || ('A' ≤ c && c ≤ 'Z') || c == '_'

variable (B : Builtins F)

def keyOf : Value F → Option Key
  | .str s => some (.name s)
  | v => (B.hash v).map .other

/-- The name and the rest, if a placeholder's name and its brace come next. -/
def placeholder : List Char → Option (String × List Char)
  | [] => none
  | c :: cs =>
      if isLetter c then
        match cs.dropWhile B.isWord with
        | '\x7d' :: rest => some (String.ofList (c :: cs.takeWhile B.isWord), rest)
        | _ => none
      else none

/-- `_PLACEHOLDER.sub`, over so many characters -/
def subst_text (env : Env F) : ℕ → List Char → Except Exn (List Char)
  | 0, cs => .ok cs
  | _, [] => .ok []
  | n + 1, c :: cs =>
      match if c = '\x7b' then placeholder B cs else none with
      | none => (subst_text env n cs).map (c :: ·)
      | some (name, rest) =>
          match env.get (.name name) with
          | none => .error (.skill_error ("unbound variable \x7b" ++ name ++ "\x7d"))
          | some v => (subst_text env n rest).map ((B.str v).toList ++ ·)

mutual

/-- `_subst` -/
def subst (env : Env F) : Value F → Except Exn (Value F)
  | .str s => (subst_text B env s.length s.toList).map fun cs => .str (String.ofList cs)
  | .obj m => (subst_members env m).map .obj
  | .arr vs => (subst_items env vs).map .arr
  | v => .ok v

def subst_items (env : Env F) : List (Value F) → Except Exn (List (Value F))
  | [] => .ok []
  | v :: vs => do
      let v ← subst env v
      let vs ← subst_items env vs
      pure (v :: vs)

def subst_members (env : Env F) : List (String × Value F) → Except Exn (List (String × Value F))
  | [] => .ok []
  | (k, v) :: ms => do
      let v ← subst env v
      let ms ← subst_members env ms
      pure ((k, v) :: ms)

end

/-- `v[name]` that was read before -/
def present {α : Type} : Option α → Except Exn α
  | none => .error .other
  | some v => .ok v

variable [PyFloat F]

def as_number : Value F → Except Exn (Option F)
  | .int n =>
      match PyFloat.ofInt n with
      | none => .error .other
      | some f => .ok (some f)
  | .float f => .ok (some f)
  | .str s => .ok (PyFloat.ofText s)
  | _ => .ok none

/-- A comparison, by equality, order and the order of the other way round. -/
def comparison (eq lt le gt ge : Bool) (op : Value F) : Except Exn Bool :=
  if op.asStr = some "==" then .ok eq
  else if op.asStr = some "!=" then .ok !eq
  else if op.asStr = some "<" then .ok lt
  else if op.asStr = some "<=" then .ok le
  else if op.asStr = some ">" then .ok gt
  else if op.asStr = some ">=" then .ok ge
  else .error (.skill_error ("unknown comparison operator " ++ B.repr op))

/-- `_compare` -/
def compare (left right op : Value F) : Except Exn Bool := do
  let ln ← as_number left
  let rn ← as_number right
  match ln, rn with
  | some a, some b =>
      comparison B (PyFloat.le a b && PyFloat.le b a) (PyFloat.lt a b) (PyFloat.le a b) (PyFloat.lt b a)
        (PyFloat.le b a) op
  | _, _ =>
      let a := B.str left
      let b := B.str right
      comparison B (decide (a = b)) (decide (a < b)) (decide (a ≤ b)) (decide (b < a)) (decide (b ≤ a)) op

/-! ## Running -/

inductive Call (F : Type) where
  | execute (action : Value F)
  | check (description : Value F)

/-- What the callbacks answer after the calls so far. -/
structure Callbacks (F : Type) where
  /-- whether the action returns -/
  execute : List (Call F) → Value F → Bool
  /-- `none` when it raises -/
  check : List (Call F) → Value F → Option Bool
  /-- also after how many statements -/
  should_stop : List (Call F) → ℕ → Bool

inductive Reason where
  | stopped
  | limit
deriving DecidableEq

structure State (F : Type) where
  trace : List (Call F)
  stmt : ℕ
  actions : ℕ
  reason : Option Reason

structure Bounds where
  max_statements : ℕ
  max_loop : ℕ

/-- What is raised, and the state it is raised in. -/
abbrev Run (F α : Type) := Except (Exn × State F) (α × State F)

/-- A computation that calls nothing. -/
def pureRun {α : Type} (st : State F) : Except Exn α → Run F α
  | .error e => .error (e, st)
  | .ok a => .ok (a, st)

variable (W : Callbacks F)

/-- `eval_cond` -/
def eval_cond (env : Env F) (st : State F) : Cond F → Run F Bool
  | .screen description =>
      match present description >>= subst B env with
      | .error e => .error (e, st)
      | .ok v =>
          let st' := { st with trace := st.trace ++ [.check v] }
          match W.check st.trace v with
          | none => .error (.other, st')
          | some answer => .ok (answer, st')
  | .expr left right op =>
      pureRun st (do
        let left ← present left >>= subst B env
        let right ← present right >>= subst B env
        compare B left right op)
  | .not cond =>
      match eval_cond env st cond with
      | .error e => .error e
      | .ok (answer, st) => .ok (!answer, st)
  | .unknown kind => .error (.skill_error ("unknown condition kind " ++ B.repr kind), st)
  | .bad => .error (.other, st)

/-- `env[var] = v` -/
def assign (env : Env F) (var : Option (Value F)) (v : Value F) : Except Exn (Env F) := do
  let var ← present var
  let key ← present (keyOf B var)
  pure (env.set key v)

def set_var (env : Env F) (var value : Option (Value F)) : Except Exn (Env F) := do
  let v ← present value >>= subst B env
  assign B env var v

/-- `_as_number(v) or 0.0`; `none` is zero -/
def amountOf (v : Value F) : Except Exn (Option F) :=
  (as_number v).map fun f => f.filter fun f => !B.isZero f

def incr_var (env : Env F) (var : Option (Value F)) (amount : Value F) : Except Exn (Env F) := do
  let name ← present var
  let key ← present (keyOf B name)
  let cur ← amountOf B ((env.get key).getD (.int 0))
  let step ← amountOf B amount
  match cur, step with
  | none, none => assign B env var (.int 0)
  | some f, none | none, some f =>
      let n ← present (B.whole f)
      assign B env var ((n.map .int).getD (.float f))
  | some f, some g =>
      let n ← present (B.whole (PyFloat.add f g))
      assign B env var ((n.map .int).getD (.float (PyFloat.add f g)))

/-- The body that is called, and the environment it starts with. -/
def callee (skills : Skills F) (env : Env F) (skill : Option (Value F)) (args : Value F) :
    Except Exn (Body F × Env F) := do
  let name ← present skill
  let key ← present (keyOf B name)
  match key with
  | .other _ => .error (.skill_error ("call to unknown skill " ++ B.repr name))
  | .name s =>
      match objGet skills s with
      | none => .error (.skill_error ("call to unknown skill " ++ B.repr name))
      | some body => do
          let m ← present args.asObj
          let m ← subst_members B env m
          let body ← present body
          pure (body, m.foldl (fun env e => env.set (.name e.1) e.2) .empty)

/-- How often `repeat` goes round, if nothing bounds it. -/
def countOf (env : Env F) (count : Option (Value F)) : Except Exn ℤ := do
  let raw ← present count
  match raw with
  | .str s =>
      match ← subst B env (.str s) with
      | .str text => present (B.int_float text)
      | _ => .error .other
  | v => present (B.int v)

def truthy : Value F → Bool
  | .null => false
  | .bool b => b
  | .int n => decide (n ≠ 0)
  | .float f => !B.isZero f
  | .str s => decide (s ≠ "")
  | .arr vs => !vs.isEmpty
  | .obj m => !m.isEmpty

/-- `if stmt.get("var"): env[stmt["var"]] = i + 1` -/
def bind_round (env : Env F) (var : Option (Value F)) (i : ℕ) : Except Exn (Env F) :=
  if var.any (truthy B) then assign B env var (.int (i + 1)) else .ok env

/-- The rounds of a `repeat` that are left after `i`. -/
def repeat_loop (bind : ℕ → Env F → Except Exn (Env F)) (run : Env F → State F → Run F (Env F)) :
    ℕ → ℕ → Env F → State F → Run F (Env F)
  | 0, _, env, st => .ok (env, st)
  | left + 1, i, env, st =>
      match bind i env with
      | .error e => .error (e, st)
      | .ok env =>
          match run env st with
          | .error e => .error e
          | .ok (env, st) => if st.reason.isSome then .ok (env, st) else repeat_loop bind run left (i + 1) env st

/-- A `while` that may go round so often. -/
def while_loop (test : Env F → State F → Run F Bool) (run : Env F → State F → Run F (Env F)) :
    ℕ → Env F → State F → Run F (Env F)
  | left, env, st =>
      match test env st with
      | .error e => .error e
      | .ok (false, st) => .ok (env, st)
      | .ok (true, st) =>
          match left with
          | 0 => .ok (env, { st with reason := some .limit })
          | left + 1 =>
              match run env st with
              | .error e => .error e
              | .ok (env, st) => if st.reason.isSome then .ok (env, st) else while_loop test run left env st

/-- What runs the body of a called skill; `none` if the stack is full. -/
abbrev Caller (F : Type) := Option (Body F → Env F → State F → Run F (Env F))

variable (bounds : Bounds) (skills : Skills F)

mutual

/-- One statement, after it was counted. -/
def run_stmt (call : Caller F) : Stmt F → Env F → State F → Run F (Env F)
  | .action fields, env, st =>
      match subst_members B env fields with
      | .error e => .error (e, st)
      | .ok fields =>
          let st' := { st with trace := st.trace ++ [.execute (.obj fields)] }
          if W.execute st.trace (.obj fields) then .ok (env, { st' with actions := st.actions + 1 })
          else .error (.other, st')
  | .set var value, env, st => pureRun st (set_var B env var value)
  | .incr var amount, env, st => pureRun st (incr_var B env var amount)
  | .call skill args, env, st =>
      match call with
      | none => .error (.skill_error "skill call depth exceeded (recursion runaway?)", st)
      | some run =>
          match callee B skills env skill args with
          | .error e => .error (e, st)
          | .ok (body, args) =>
              match run body args st with
              | .error e => .error e
              | .ok (_, st) => .ok (env, st)
  | .ite cond thn els, env, st =>
      match eval_cond B W env st cond with
      | .error e => .error e
      | .ok (true, st) => run_body call thn env st
      | .ok (false, st) => run_body call els env st
  | .repeat_ count var body, env, st =>
      match countOf B env count with
      | .error e => .error (e, st)
      | .ok n =>
          repeat_loop (fun i env => bind_round B env var i) (fun env st => run_body call body env st)
            (min n.toNat bounds.max_loop) 0 env st
  | .while_ cond body, env, st =>
      while_loop (fun env st => eval_cond B W env st cond) (fun env st => run_body call body env st)
        bounds.max_loop env st
  | .unknown op, _, st => .error (.skill_error ("unknown statement op " ++ B.repr op), st)
  | .bad, _, st => .error (.other, st)

/-- `run_body` -/
def run_body (call : Caller F) : Body F → Env F → State F → Run F (Env F)
  | .bad, _, st => .error (.other, st)
  | .nil, env, st => .ok (env, st)
  | .cons stmt rest, env, st =>
      if st.reason.isSome then .ok (env, st)
      else if W.should_stop st.trace st.stmt then .ok (env, { st with reason := some .stopped })
      else if bounds.max_statements ≤ st.stmt then .ok (env, { st with reason := some .limit })
      else
        match run_stmt call stmt env { st with stmt := st.stmt + 1 } with
        | .error e => .error e
        | .ok (env, st) => run_body call rest env st

end

/-- The callers for a stack with so much room. -/
def caller : ℕ → Caller F
  | 0 => none
  | room + 1 => some fun body env st => run_body B W bounds skills (caller room) body env st

inductive Outcome where
  | completed
  | stopped
  | limit

structure SkillResult where
  outcome : Outcome
  actions : ℕ
  statements : ℕ

def State.start : State F := ⟨[], 0, 0, none⟩

def resultOf (st : State F) : SkillResult where
  outcome :=
    match st.reason with
    | none => .completed
    | some .stopped => .stopped
    | some .limit => .limit
  actions := st.actions
  statements := st.stmt

/-- The skills of a library; `none` if they are not a dictionary. -/
def libraryOf : Value F → Option (Skills F)
  | .obj m => (((objGet m "skills").getD (.obj m)).asObj).map skillsOf
  | _ => some []

/-- `run_skill` -/
def run_skill (library : Value F) (entry : String) (args : Env F) : Run F SkillResult :=
  match libraryOf library with
  | none => .error (.other, .start)
  | some skills =>
      match objGet skills entry with
      | none => .error (.skill_error ("unknown entry skill " ++ B.repr (.str entry)), .start)
      | some none => .error (.other, .start)
      | some (some body) =>
          match run_body B W bounds skills (caller B W bounds skills MAX_DEPTH) body args .start with
          | .error e => .error e
          | .ok (_, st) => .ok (resultOf st, st)

end

end Secdogie.Agent.Skill
