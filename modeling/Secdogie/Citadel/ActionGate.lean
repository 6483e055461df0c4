/-
# `Secdogie.Citadel.ActionGate` — one proposed action, questioned

Fifteen checks look at an action and at what is known around it, each with at
most one finding; the verdict is that of the gravest.  What memory knows of
earlier failures is read by one check, and a rewrite is asked for by one.

`memory_and_rewrite`: more known failures never lower the verdict, and the
action that a rewrite proposes has the same effect and is allowed.
-/
import Secdogie.Agent.Action
import Secdogie.Identity.Revocation
import Secdogie.Lib.MapOption

namespace Secdogie.Citadel

open Secdogie.Graph Secdogie.Identity

inductive Verdict where
  | allow
  | reject
  | rewrite
  | request_reobserve
deriving DecidableEq

/-- `_PRECEDENCE` -/
def Verdict.precedence : Verdict → ℕ
  | .request_reobserve => 3
  | .reject => 2
  | .rewrite => 1
  | .allow => 0

def STALE_TARGET : String := "stale-target"
def TARGET_MISMATCH : String := "target-mismatch"
def NO_OP : String := "no-op"
def REPEATED : String := "repeated"
def POLLING : String := "polling"
def DESTRUCTIVE_CHAIN : String := "destructive-chain"
def MISSING_VERIFICATION : String := "missing-verification"
def EXCESSIVE_COST : String := "excessive-cost"
def OUT_OF_CAPABILITY : String := "out-of-capability"
def UNATTENDED_POSTING : String := "unattended-posting"
def UNAUTHORIZED_ACTION : String := "unauthorized-action"
def INTENT_UNPROVEN : String := "intent-unproven"
def INTENT_CONTRADICTION : String := "intent-contradiction"
def PRECONDITION_FAILED : String := "precondition-failed"
def KNOWN_FAILURE : String := "known-failure"

def READ_KINDS : List String := ["read", "observe", "get", "inspect", "screenshot", "wait", "poll"]

def POSTING_KINDS : List String :=
  ["post", "publish", "submit", "send", "reply", "comment", "tweet", "dm"]

def DESTRUCTIVE_KINDS : List String :=
  ["delete", "overwrite", "format", "drop", "uninstall", "run_elevated"]

def CAPABILITY_FOR : List (String × String) :=
  [("click", "physical.click"), ("press", "physical.click"), ("type", "physical.type"),
    ("key", "physical.key"), ("scroll", "physical.scroll"), ("drag", "physical.drag"),
    ("open", "system.open"), ("run", "process.run"), ("run_elevated", "process.run_elevated"),
    ("post", "network.post"), ("publish", "network.post"), ("submit", "network.post"),
    ("send", "network.send"), ("reply", "network.send"), ("comment", "network.post"),
    ("read", "observe.read"), ("observe", "observe.read")]

def GRANTABLE_SCOPES : List String :=
  ["observe.read", "physical.click", "physical.type", "physical.key", "physical.scroll",
    "physical.drag", "system.open", "process.run", "network.post", "network.send"]

/-- `allows` -/
def capability_allows (granted : Finset String) (required : String) : Bool :=
  decide (required ∈ GRANTABLE_SCOPES ∧ required ∈ granted)

structure IntentContract where
  purpose : String := ""
  rollback : String := ""
  irreversible : Bool := false
  requires_present : List String := []

structure PlannedAction (F : Type) where
  kind : String
  target_id : String := ""
  target_role : String := ""
  target_name : String := ""
  text : String := ""
  high_risk : Bool := false
  generation : ℤ := 0
  expected_observation : String := ""
  estimated_cost : F
  intent : IntentContract := {}

structure GateContext (F : Type) where
  current_generation : ℤ := 0
  target_present_ids : Finset String := ∅
  recent_actions : List (PlannedAction F) := []
  capabilities : Finset String := ∅
  enforce_capabilities : Bool := false
  cost_budget : F
  requires_verification : Bool := true
  instruction : String := ""
  poll_window : ℤ := 3
  repeat_threshold : ℤ := 2
  require_authorization : Bool := false
  authorization : Option (Value F) := none
  operators : Option (String → Bool) := none
  subject_did : String := ""
  now : Option F := none
  require_intent : Bool := false
  active_goal_ids : Finset String := ∅
  known_failures : Finset String := ∅

structure Finding where
  kind : String
  detail : String
  verdict : Verdict
  /-- in tenths -/
  risk : ℕ

/-- What is built in. -/
structure GateBuiltins (F : Type) where
  repr : String → String
  str : F → String
  isalnum : Char → Bool

/-- `not s.strip()` -/
def isBlank (s : String) : Bool := s.toList.all (fun c => Agent.isSpace c.toNat)

namespace PlannedAction

variable {F : Type}

def mutating (a : PlannedAction F) : Bool := decide (a.kind ∉ READ_KINDS)

def destructive (a : PlannedAction F) : Bool := a.high_risk || decide (a.kind ∈ DESTRUCTIVE_KINDS)

def signature (a : PlannedAction F) : String × String × String := (a.kind, a.target_id, a.text)

end PlannedAction

/-! ## Instructions that ask for unattended posting -/

/-- What a regular expression asks for next. -/
inductive Piece where
  | lit (s : String)
  /-- some white space -/
  | gap
  /-- the edge of a word -/
  | edge

/-- A letter without its case, and the four letters that count for an English one. -/
def foldCase (c : Char) : Char :=
  if c = '\u0130' ∨ c = '\u0131' then 'i'
  else if c = '\u017f' then 's'
  else if c = '\u212a' then 'k'
  else c.toLower

def isWord (isalnum : Char → Bool) : Option Char → Bool
  | none => false
  | some c => isalnum c || c = '_'

/-- The pieces follow, after a character.  What follows a gap is no space, so that a gap is as
long as it can be. -/
def matchAt (isalnum : Char → Bool) : List Piece → Option Char → List Char → Bool
  | [], _, _ => true
  | .lit s :: ps, before, cs =>
      let taken := cs.take s.length
      decide (taken.map foldCase = s.toList) &&
        matchAt isalnum ps (taken.getLast?.or before) (cs.drop s.length)
  | .gap :: ps, _, cs =>
      let space := cs.takeWhile (fun c => Agent.isSpace c.toNat)
      decide (space ≠ []) && matchAt isalnum ps space.getLast? (cs.drop space.length)
  | .edge :: ps, before, cs =>
      (isWord isalnum before != isWord isalnum cs.head?) && matchAt isalnum ps before cs

/-- `re.search`, ignoring case -/
def search (isalnum : Char → Bool) (ps : List Piece) : Option Char → List Char → Bool
  | before, [] => matchAt isalnum ps before []
  | before, c :: cs => matchAt isalnum ps before (c :: cs) || search isalnum ps (some c) cs

def part (w : String) : List Piece := [.lit w]

def wholeWord (w : String) : List Piece := [.edge, .lit w, .edge]

def without (w : String) : List Piece := [.lit "without", .gap, .lit w]

def onBehalf (w : String) : List Piece := [.lit "on", .gap, .lit w, .gap, .lit "behalf"]

/-- `_PUBLISH_VERB` -/
def PUBLISH_VERB : List (List Piece) :=
  ["post", "publish", "submit", "send", "reply", "comment", "tweet", "dm", "message"].map wholeWord ++
  ["发帖", "发布", "发送", "回复", "评论", "提交", "推送", "群发"].map part

/-- `_UNATTENDED` -/
def UNATTENDED : List (List Piece) :=
  ["automatically", "unattended", "autonomous", "silently"].map part ++
  ["asking", "confirmation", "confirming", "review", "approval", "a human"].map without ++
  [[Piece.lit "no", .gap, .lit "confirmation"]] ++
  ["my", "the user's", "the users"].map onBehalf ++
  ["自动", "自主", "擅自", "静默", "不询问", "不确认", "不经确认", "不经审核", "无需确认", "替我",
    "替用户"].map part

/-- `review` gives a reason that is `_check_unattended_posting`'s. -/
def asksUnattended (isalnum : Char → Bool) (text : String) : Bool :=
  PUBLISH_VERB.any (fun ps => search isalnum ps none text.toList) &&
    UNATTENDED.any (fun ps => search isalnum ps none text.toList)

/-! ## Authorizations -/

section

variable {F : Type} [PyFloat F] (C : Crypto)

def AUTHORIZATION_TYPE : String := "secdogie/action-authorization/v1"

/-- `action_hash`, of what the action does -/
def action_hash (a : PlannedAction F) : String :=
  digest C (F := F) (.obj [("high_risk", .bool a.high_risk), ("kind", .str a.kind),
    ("target_id", .str a.target_id), ("target_name", .str a.target_name),
    ("target_role", .str a.target_role), ("text", .str a.text)])

/-- `verify_authorization`: the reason it is refused, if it is; no value is an `OverflowError`. -/
def verify_authorization (token : Option (Value F)) (a : PlannedAction F)
    (operators : Option (String → Bool)) (subject : String) (now : F) : Option (Option String) :=
  match token.bind Value.asObj with
  | none => some (some "not an authorization object")
  | some m =>
      if textField (Value.obj m) "type" ≠ some AUTHORIZATION_TYPE then
        some (some "wrong or missing type (domain separation)")
      else
        match operators with
        | none => some (some "no trusted operators configured")
        | some trusted =>
            match verifyPayload C trusted (.obj m) with
            | (false, signer) =>
                some (some (if signer.any (fun s => s ≠ "") then "operator not trusted or revoked"
                  else "invalid or missing signature"))
            | (true, _) =>
                if textField (Value.obj m) "action_hash" ≠ some (action_hash C a) then
                  some (some "token authorizes a different action")
                else if textField (Value.obj m) "subject" ≠ some subject then
                  some (some "token is for a different node")
                else
                  let vf := (field (.obj m) "valid_from").getD .null
                  let exp := (field (.obj m) "expires_at").getD .null
                  if !isNumber vf || !isNumber exp then some (some "invalid validity window")
                  else do
                    let valid_from ← toFloat vf
                    if PyFloat.lt now valid_from then some (some "authorization not yet valid")
                    else do
                      let expires_at ← toFloat exp
                      if PyFloat.le expires_at now then some (some "authorization expired")
                      else some none

/-! ## The checks -/

/-- The finding of a check, if it has one. -/
def findingIf (p : Prop) [Decidable p] (kind detail : String) (verdict : Verdict) (risk : ℕ) :
    Option Finding := if p then some ⟨kind, detail, verdict, risk⟩ else none

/-- `repr` of a list -/
def reprList (P : GateBuiltins F) (l : List String) : String :=
  "[" ++ String.intercalate ", " (l.map P.repr) ++ "]"

section

variable (P : GateBuiltins F) (clock : F) (a : PlannedAction F) (ctx : GateContext F)

def check_stale_target : Option Finding :=
  findingIf (a.generation ≠ 0 ∧ ctx.current_generation ≠ 0 ∧ a.generation ≠ ctx.current_generation)
    STALE_TARGET
    ("decided at generation " ++ toString a.generation ++ ", current is " ++
      toString ctx.current_generation)
    .request_reobserve 6

/-- An empty set of targets means that they are not known. -/
def check_target_present : Option Finding :=
  findingIf (a.target_id ≠ "" ∧ ctx.target_present_ids ≠ ∅ ∧ a.target_id ∉ ctx.target_present_ids)
    TARGET_MISMATCH ("target " ++ P.repr a.target_id ++ " is not in the current observation")
    .request_reobserve 6

def check_no_op : Option Finding :=
  findingIf (ctx.recent_actions.getLast?.any (fun r => r.signature = a.signature) ∧ a.mutating)
    NO_OP "identical to the action just taken -- likely a no-op repeat" .reject 2

def check_repeated : Option Finding :=
  let same := ctx.recent_actions.countP (fun r => r.signature = a.signature)
  findingIf (ctx.repeat_threshold ≤ same) REPEATED
    ("the same action has already run " ++ toString same ++ "x -- fix the cause, don't loop")
    .reject 4

def check_polling : Option Finding :=
  let window := if 1 < ctx.poll_window then
    ctx.recent_actions.drop (ctx.recent_actions.length - (ctx.poll_window - 1).toNat) else []
  findingIf (a.kind ∈ READ_KINDS ∧ ctx.poll_window - 1 ≤ window.length ∧ window ≠ [] ∧
      window.all (fun r => r.kind ∈ READ_KINDS))
    POLLING
    (toString ctx.poll_window ++
      " observe-only actions in a row with no change between -- busy-poll")
    .reject 3

def check_destructive_chain : Option Finding :=
  findingIf (a.destructive ∧ ctx.recent_actions.getLast?.any PlannedAction.destructive)
    DESTRUCTIVE_CHAIN "a destructive action chained onto another with no verification between"
    .reject 9

def check_missing_verification : Option Finding :=
  findingIf (ctx.requires_verification ∧ a.mutating ∧ isBlank a.expected_observation)
    MISSING_VERIFICATION
    "a mutating action with no declared expected observation to verify against" .rewrite 3

def check_excessive_cost : Option Finding :=
  findingIf ((PyFloat.ofInt 0).any (fun zero : F => PyFloat.lt zero ctx.cost_budget) ∧
      PyFloat.lt ctx.cost_budget a.estimated_cost)
    EXCESSIVE_COST
    ("estimated cost " ++ P.str a.estimated_cost ++ " exceeds budget " ++ P.str ctx.cost_budget)
    .reject 3

def check_capability : Option Finding :=
  if ctx.enforce_capabilities ∨ ctx.capabilities ≠ ∅ then
    match CAPABILITY_FOR.lookup a.kind with
    | none =>
        findingIf a.mutating OUT_OF_CAPABILITY
          ("action " ++ P.repr a.kind ++
            " has no capability scope; it is refused while capabilities are enforced")
          .reject 7
    | some required =>
        findingIf (¬ capability_allows ctx.capabilities required) OUT_OF_CAPABILITY
          ("action " ++ P.repr a.kind ++ " needs capability " ++ P.repr required ++
            ", which was not granted")
          .reject 7
  else none

def check_unattended_posting : Option Finding :=
  findingIf (a.kind ∈ POSTING_KINDS ∧ ¬ isBlank ctx.instruction ∧
      asksUnattended P.isalnum ctx.instruction)
    UNATTENDED_POSTING
    "the instruction asks to post/send unattended -- real-world posting needs a human" .reject 9

def check_authorization : Option (Option Finding) :=
  if ctx.require_authorization ∧ a.destructive then
    (verify_authorization C ctx.authorization a ctx.operators ctx.subject_did
      (ctx.now.getD clock)).map (fun refused => refused.map (fun reason => ⟨UNAUTHORIZED_ACTION,
        "destructive action needs an operator-signed authorization: " ++ reason, .reject, 10⟩))
  else some none

def check_intent_unproven : Option Finding :=
  let missing :=
    (if isBlank a.intent.purpose then ["its purpose (which goal it serves)"] else []) ++
    (if a.destructive ∧ isBlank a.intent.rollback ∧ ¬ a.intent.irreversible then
      ["a rollback path, or an explicit irreversible acknowledgment"] else [])
  findingIf (ctx.require_intent ∧ a.mutating ∧ missing ≠ []) INTENT_UNPROVEN
    ("intent not stated: " ++ String.intercalate "; " missing) .reject 5

def check_intent_contradiction : Option Finding :=
  let purpose := String.ofList
    ((a.intent.purpose.toList.dropWhile (fun c => Agent.isSpace c.toNat)).reverse.dropWhile
      (fun c => Agent.isSpace c.toNat)).reverse
  let problems :=
    (if a.intent.irreversible ∧ ¬ isBlank a.intent.rollback then
      ["declared irreversible yet claims a rollback"] else []) ++
    (if purpose ≠ "" ∧ ctx.active_goal_ids ≠ ∅ ∧ purpose ∉ ctx.active_goal_ids then
      ["serves " ++ P.repr purpose ++ ", which is not an active goal"] else [])
  findingIf (problems ≠ []) INTENT_CONTRADICTION
    ("intent contradicts itself: " ++ String.intercalate "; " problems) .reject 6

def check_preconditions : Option Finding :=
  let missing := a.intent.requires_present.filter (fun t => t ∉ ctx.target_present_ids)
  findingIf (ctx.target_present_ids ≠ ∅ ∧ missing ≠ []) PRECONDITION_FAILED
    ("precondition not met: " ++ reprList P missing ++ " not in the current observation")
    .request_reobserve 5

def check_known_failure : Option Finding :=
  findingIf (action_hash C a ∈ ctx.known_failures) KNOWN_FAILURE
    "this exact action failed repeatedly in earlier runs -- fix the cause, don't retry it"
    .reject 6

end

/-! ## The gate -/

/-- `_CHECKS`; only the last can raise. -/
def CHECKS (P : GateBuiltins F) (clock : F) :
    List (PlannedAction F → GateContext F → Option (Option Finding)) :=
  [fun a ctx => some (check_stale_target a ctx),
    fun a ctx => some (check_target_present P a ctx),
    fun a ctx => some (check_no_op a ctx),
    fun a ctx => some (check_repeated a ctx),
    fun a ctx => some (check_polling a ctx),
    fun a ctx => some (check_destructive_chain a ctx),
    fun a ctx => some (check_missing_verification a ctx),
    fun a ctx => some (check_excessive_cost P a ctx),
    fun a ctx => some (check_capability P a ctx),
    fun a ctx => some (check_unattended_posting P a ctx),
    fun a ctx => some (check_intent_unproven a ctx),
    fun a ctx => some (check_intent_contradiction P a ctx),
    fun a ctx => some (check_preconditions P a ctx),
    fun a ctx => some (check_known_failure C a ctx),
    fun a ctx => check_authorization C clock a ctx]

def findingsOf (P : GateBuiltins F) (clock : F) (a : PlannedAction F) (ctx : GateContext F) :
    Option (List Finding) := do
  let found ← (CHECKS C P clock).mapM (fun check => check a ctx)
  pure found.reduceOption

structure GateDecision (F : Type) where
  verdict : Verdict
  reason : String
  findings : List String
  replacement : Option (PlannedAction F)
  risk : ℕ
  estimated_cost : F
  expected_observation : String

/-- The first of the gravest; to allow is the least grave. -/
def gravest (verdicts : List Verdict) : Verdict :=
  verdicts.foldl (fun best v => if best.precedence < v.precedence then v else best) .allow

def VERIFY_BY_REOBSERVATION : String :=
  "the targeted UI visibly changes; verify by re-observation / pixel-diff before " ++
    "treating this action as done"

/-- What a rewrite attaches: a verification, when there is none. -/
def rewriteOf (a : PlannedAction F) (findings : List Finding) : Option (PlannedAction F) :=
  if findings.any (fun f => f.kind = MISSING_VERIFICATION) ∧ isBlank a.expected_observation then
    some { a with expected_observation := VERIFY_BY_REOBSERVATION }
  else none

def decide_on (a : PlannedAction F) (findings : List Finding) : GateDecision F :=
  let verdict := gravest (findings.map Finding.verdict)
  let replacement := if verdict = .rewrite then rewriteOf a findings else none
  { verdict
    reason := String.intercalate "; " (findings.map Finding.detail)
    findings := findings.map Finding.kind
    replacement
    risk := (findings.map Finding.risk).foldl max 0
    estimated_cost := a.estimated_cost
    expected_observation := (replacement.getD a).expected_observation }

/-- `gate`; no decision when a check raises. -/
def gate (P : GateBuiltins F) (clock : F) (a : PlannedAction F) (ctx : GateContext F) :
    Option (GateDecision F) :=
  (findingsOf C P clock a ctx).map (decide_on a)

end

/-! ## The gravest verdict -/

theorem foldl_gravest (verdicts : List Verdict) (best : Verdict) :
    let worst := verdicts.foldl (fun best v => if best.precedence < v.precedence then v else best) best
    best.precedence ≤ worst.precedence ∧ (∀ v ∈ verdicts, v.precedence ≤ worst.precedence) ∧
      (worst = best ∨ worst ∈ verdicts) := by
  induction verdicts generalizing best with
  | nil => exact ⟨le_rfl, fun v hv => absurd hv List.not_mem_nil, Or.inl rfl⟩
  | cons v verdicts ih =>
      rw [List.foldl_cons]
      obtain ⟨hbest, hall, hmem⟩ := ih (if best.precedence < v.precedence then v else best)
      have hle : best.precedence ≤ (if best.precedence < v.precedence then v else best).precedence ∧
          v.precedence ≤ (if best.precedence < v.precedence then v else best).precedence := by
        split_ifs with hlt
        · exact ⟨hlt.le, le_rfl⟩
        · exact ⟨le_rfl, not_lt.mp hlt⟩
      refine ⟨hle.1.trans hbest, fun w hw => ?_, ?_⟩
      · rcases List.mem_cons.mp hw with rfl | hw
        · exact hle.2.trans hbest
        · exact hall w hw
      · rcases hmem with hmem | hmem
        · rw [hmem]
          split_ifs
          · exact Or.inr List.mem_cons_self
          · exact Or.inl rfl
        · exact Or.inr (List.mem_cons_of_mem v hmem)

theorem le_gravest {verdicts : List Verdict} {v : Verdict} (h : v ∈ verdicts) :
    v.precedence ≤ (gravest verdicts).precedence :=
  (foldl_gravest verdicts .allow).2.1 v h

theorem gravest_mem (verdicts : List Verdict) :
    gravest verdicts = .allow ∨ gravest verdicts ∈ verdicts :=
  (foldl_gravest verdicts .allow).2.2

theorem gravest_mono {verdicts verdicts' : List Verdict} (h : verdicts ⊆ verdicts') :
    (gravest verdicts).precedence ≤ (gravest verdicts').precedence := by
  rcases gravest_mem verdicts with heq | hmem
  · rw [heq]
    exact Nat.zero_le _
  · exact le_gravest (h hmem)

/-! ## What the checks read -/

section

variable {F : Type} [PyFloat F] {C : Crypto} {P : GateBuiltins F} {clock : F}
  {a : PlannedAction F} {ctx : GateContext F}

theorem findingIf_eq_some {p : Prop} [Decidable p] {kind detail : String} {verdict : Verdict}
    {risk : ℕ} {f : Finding} (h : findingIf p kind detail verdict risk = some f) :
    p ∧ f = ⟨kind, detail, verdict, risk⟩ := by
  rw [findingIf] at h
  split_ifs at h with hp
  exact ⟨hp, (Option.some.inj h).symm⟩

theorem mem_findingsOf {findings : List Finding} (h : findingsOf C P clock a ctx = some findings)
    {f : Finding} : f ∈ findings ↔ ∃ check ∈ CHECKS C P clock, check a ctx = some (some f) := by
  simp only [findingsOf, Option.bind_eq_bind, Option.bind_eq_some_iff] at h
  obtain ⟨found, hfound, heq⟩ := h
  obtain rfl := Option.some.inj heq
  rw [List.reduceOption_mem_iff, mem_mapM hfound]

theorem exists_findingsOf_iff : (∃ findings, findingsOf C P clock a ctx = some findings) ↔
    ∀ check ∈ CHECKS C P clock, ∃ o, check a ctx = some o := by
  rw [← exists_mapM_iff]
  simp only [findingsOf, Option.bind_eq_bind, Option.bind_eq_some_iff]
  constructor
  · rintro ⟨-, found, hfound, -⟩
    exact ⟨found, hfound⟩
  · rintro ⟨found, hfound⟩
    exact ⟨_, found, hfound, rfl⟩

/-- One check reads the known failures. -/
theorem reads_known_failures {check : PlannedAction F → GateContext F → Option (Option Finding)}
    (h : check ∈ CHECKS C P clock) : check = (fun a ctx => some (check_known_failure C a ctx)) ∨
      ∀ a ctx known, check a { ctx with known_failures := known } = check a ctx := by
  revert check
  simp only [CHECKS, List.forall_mem_cons]
  iterate 13 refine ⟨Or.inr fun _ _ _ => rfl, ?_⟩
  exact ⟨Or.inl trivial, Or.inr fun _ _ _ => rfl, fun _ hmem => absurd hmem List.not_mem_nil⟩

/-- What a check finds is graver than a rewrite. -/
def Grave (check : PlannedAction F → GateContext F → Option (Option Finding)) : Prop :=
  ∀ a ctx f, check a ctx = some (some f) → 2 ≤ f.verdict.precedence

/-- A check does not read what is expected to be observed. -/
def Unexpecting (check : PlannedAction F → GateContext F → Option (Option Finding)) : Prop :=
  ∀ a ctx expected, check { a with expected_observation := expected } ctx = check a ctx

theorem grave_findingIf {p : Prop} [Decidable p] {kind detail : String} {verdict : Verdict}
    {risk : ℕ} {f : Finding} (hgrave : 2 ≤ verdict.precedence)
    (h : some (findingIf p kind detail verdict risk) = some (some f)) : 2 ≤ f.verdict.precedence := by
  rw [(findingIf_eq_some (Option.some.inj h)).2]
  exact hgrave

omit [PyFloat F] in
theorem grave_check_capability : Grave (fun a ctx => some (check_capability P a ctx)) := by
  intro a ctx f h
  dsimp only [check_capability] at h
  split_ifs at h
  · split at h
    · exact grave_findingIf le_rfl h
    · exact grave_findingIf le_rfl h
  · exact nomatch Option.some.inj h

theorem grave_check_authorization : Grave (check_authorization C clock) := by
  intro a ctx f h
  rw [check_authorization] at h
  split_ifs at h
  · obtain ⟨refused, -, hrefused⟩ := Option.map_eq_some_iff.mp h
    obtain ⟨reason, -, rfl⟩ := Option.map_eq_some_iff.mp hrefused
    exact le_rfl
  · exact nomatch Option.some.inj h

/-- One check asks for a rewrite, and only it reads what is expected to be observed. -/
theorem asks_for_rewrite {check : PlannedAction F → GateContext F → Option (Option Finding)}
    (h : check ∈ CHECKS C P clock) : check = (fun a ctx => some (check_missing_verification a ctx)) ∨
      Grave check ∧ Unexpecting check := by
  revert check
  simp only [CHECKS, List.forall_mem_cons]
  iterate 6
    refine ⟨Or.inr ⟨fun _ _ _ => grave_findingIf (by decide), fun _ _ _ => rfl⟩, ?_⟩
  refine ⟨Or.inl trivial, ?_⟩
  refine ⟨Or.inr ⟨fun _ _ _ => grave_findingIf (by decide), fun _ _ _ => rfl⟩, ?_⟩
  refine ⟨Or.inr ⟨grave_check_capability, fun _ _ _ => rfl⟩, ?_⟩
  iterate 5
    refine ⟨Or.inr ⟨fun _ _ _ => grave_findingIf (by decide), fun _ _ _ => rfl⟩, ?_⟩
  exact ⟨Or.inr ⟨grave_check_authorization, fun _ _ _ => rfl⟩,
    fun _ hmem => absurd hmem List.not_mem_nil⟩

/-- With more known failures there is every finding that there was. -/
theorem findings_of_more_failures {known : Finset String} (hknown : ctx.known_failures ⊆ known)
    {findings : List Finding} (h : findingsOf C P clock a ctx = some findings) :
    ∃ findings', findingsOf C P clock a { ctx with known_failures := known } = some findings' ∧
      findings ⊆ findings' := by
  have hraise : ∃ findings',
      findingsOf C P clock a { ctx with known_failures := known } = some findings' := by
    refine exists_findingsOf_iff.mpr fun check hcheck => ?_
    rcases reads_known_failures hcheck with rfl | hreads
    · exact ⟨_, rfl⟩
    · rw [hreads a ctx known]
      exact exists_findingsOf_iff.mp ⟨findings, h⟩ check hcheck
  obtain ⟨findings', h'⟩ := hraise
  refine ⟨findings', h', fun f hf => ?_⟩
  obtain ⟨check, hcheck, hfound⟩ := (mem_findingsOf h).mp hf
  refine (mem_findingsOf h').mpr ⟨check, hcheck, ?_⟩
  rcases reads_known_failures hcheck with rfl | hreads
  · obtain ⟨hhash, rfl⟩ := findingIf_eq_some (Option.some.inj hfound)
    exact congrArg some (if_pos (hknown hhash))
  · rw [hreads a ctx known]
    exact hfound

/-- When a rewrite is the gravest, the check for a verification is the only one with a finding. -/
theorem finding_of_rewrite {findings : List Finding} (h : findingsOf C P clock a ctx = some findings)
    (hverdict : gravest (findings.map Finding.verdict) = .rewrite) {f : Finding} (hf : f ∈ findings) :
    check_missing_verification a ctx = some f := by
  obtain ⟨check, hcheck, hfound⟩ := (mem_findingsOf h).mp hf
  rcases asks_for_rewrite hcheck with rfl | ⟨hgrave, -⟩
  · exact Option.some.inj hfound
  · have hle := le_gravest (List.mem_map_of_mem (f := Finding.verdict) hf)
    have hge := hgrave a ctx f hfound
    rw [hverdict] at hle
    exact absurd (hge.trans hle) (by decide)

omit [PyFloat F] in
theorem isBlank_of_missing {f : Finding} (h : check_missing_verification a ctx = some f) :
    isBlank a.expected_observation = true ∧ f.kind = MISSING_VERIFICATION := by
  obtain ⟨⟨-, -, hblank⟩, rfl⟩ := findingIf_eq_some h
  exact ⟨hblank, rfl⟩

theorem not_isBlank_verify : ¬ isBlank VERIFY_BY_REOBSERVATION = true := by decide

/-- Nothing is found in the rewritten action. -/
theorem findings_of_rewritten {findings : List Finding}
    (h : findingsOf C P clock a ctx = some findings)
    (hverdict : gravest (findings.map Finding.verdict) = .rewrite) :
    findingsOf C P clock { a with expected_observation := VERIFY_BY_REOBSERVATION } ctx =
      some [] := by
  have hcheck : ∀ check ∈ CHECKS C P clock,
      check { a with expected_observation := VERIFY_BY_REOBSERVATION } ctx = some none := by
    intro check hcheck
    rcases asks_for_rewrite hcheck with rfl | ⟨hgrave, hunexpecting⟩
    · exact congrArg some (if_neg fun hmissing => not_isBlank_verify hmissing.2.2)
    · rw [hunexpecting a ctx VERIFY_BY_REOBSERVATION]
      obtain ⟨o, ho⟩ := exists_findingsOf_iff.mp ⟨findings, h⟩ check hcheck
      cases o with
      | none => exact ho
      | some f =>
          have hf : f ∈ findings := (mem_findingsOf h).mpr ⟨check, hcheck, ho⟩
          have hmissing := (findingIf_eq_some (finding_of_rewrite h hverdict hf)).2
          have hge := hgrave a ctx f ho
          rw [hmissing] at hge
          exact absurd hge (by decide)
  obtain ⟨findings', h'⟩ := exists_findingsOf_iff.mpr fun check hmem => ⟨_, hcheck check hmem⟩
  rw [h', Option.some_inj, List.eq_nil_iff_forall_not_mem]
  intro f hf
  obtain ⟨check, hmem, hfound⟩ := (mem_findingsOf h').mp hf
  rw [hcheck check hmem] at hfound
  exact nomatch Option.some.inj hfound

end

namespace Typing

def builtins : GateBuiltins (Option Int) := ⟨id, fun _ => "1.0", Char.isAlphanum⟩

/-- Text typed with nothing expected of it. -/
def action : PlannedAction (Option Int) where
  kind := "type"
  text := "hello"
  estimated_cost := some 1

def context : GateContext (Option Int) where
  cost_budget := some 0

theorem findings_action : findingsOf .lenient builtins (some 0) action context =
    some [⟨MISSING_VERIFICATION,
      "a mutating action with no declared expected observation to verify against", .rewrite, 3⟩] := rfl

end Typing

end Secdogie.Citadel
