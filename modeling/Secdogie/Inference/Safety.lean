/-
# `Secdogie.Inference.Safety` — whether an answer may reach the user

The safety layer judges an answer from signatures and screens alone.  A check
that fails rejects the answer; a check that fails on something its author
signed also returns the evidence.  Any evidence intercepts the request, and
otherwise enough distinct nodes have to agree.
-/
import Secdogie.Inference.Lease
import Secdogie.Inference.Screen
import Secdogie.Lib.Grouping

namespace Secdogie.Inference

open Secdogie.Graph Secdogie.Identity Secdogie.Grouping

/-- What a safety layer is set up with. -/
structure SafetyConfig (F : Type) where
  C : Crypto
  trust : TrustRoots
  /-- `str.lower` -/
  lower : Str → Str
  /-- the room on the stack for nested JSON -/
  room : Nat
  skew : F
  memory : Nat := 4096
  agree : String → String → Except Raised Bool

structure Finding (F : Type) where
  ok : Bool
  reason : Option String := none
  /-- what to sign and publish -/
  evidence : Option (Kind × Value F) := none

inductive Status where
  | accepted
  | intercepted
  | insufficient
deriving DecidableEq

structure Verdict (F : Type) where
  status : Status
  output : Option String := none
  /-- whose answers carried the verdict -/
  providers : List String := []
  reasons : List String := []
  evidence : List (Kind × Value F) := []
  /-- provider and why, of the answers that did not count -/
  rejected : List (String × String) := []
  /-- providers whose valid answers disagreed -/
  dissent : List String := []

/-- Provider, request hash and model of an answer. -/
abbrev Key := String × String × String

structure SafetyLayer (F : Type) where
  leases : LeaseBook F
  ledger : MutinyLedger F
  /-- the answers remembered, the last one used last -/
  seen : List (Key × Value F) := []

/-- A text that was kept as code points. -/
def textOf (s : Str) : String := String.ofList (s.map Char.ofNat)

section

variable {F : Type}

def reject (why : String) : Finding F := { ok := false, reason := some why }

def convict (why : String) (kind : Kind) (ev : Value F) : Finding F :=
  { ok := false, reason := some why, evidence := some (kind, ev) }

/-- How an inspection ends early. -/
inductive Stop (F : Type) where
  | raised (e : Raised)
  | found (f : Finding F)

def hold (p : Prop) [Decidable p] (f : Finding F) : Except (Stop F) Unit :=
  if p then .ok () else .error (.found f)

/-- A check that has to pass, or else this is the finding. -/
def orFinding {α : Type} (c : Check α) (f : String → Finding F) : Except (Stop F) α :=
  match c with
  | .ok a => .ok a
  | .error (.refused why) => .error (.found (f why))
  | .error (.raised e) => .error (.raised e)

def responseEvidence (response : Value F) : Value F := .obj [("response", response)]

def keyOf (response : Value F) : Key :=
  ((getStr response "provider").getD "", (getStr response "request_hash").getD "",
    (getStr response "model").getD "")

def outputOf (response : Value F) : String := (getStr response "output").getD ""

def leaseOf (response : Value F) : Value F := (get response "lease").getD .null

def scopesOf (request : Value F) : List String := (strList (get request "scopes")).getD []

variable [PyNumber F] (U : SafetyConfig F)

def forbiddenTexts (output : String) : Option (List String) :=
  (forbidden U.lower U.room (Str.of output)).map (List.map textOf)

def overreachTexts (output : String) (granted : List String) : Option (List String) :=
  (overreach U.lower U.room (Str.of output) (granted.map Str.of)).map (List.map textOf)

/-- The checks that `verify_incident` makes, under one trust. -/
def checks : Checks F where
  check_response r req := reasonOf (check_response U.C U.trust r req none)
  request_evidence_ok r := request_evidence_ok U.C U.trust r
  check_lease l := reasonOf (check_lease U.C U.trust l)
  check_decision d req := reasonOf (check_decision U.C U.trust d (some req))
  decision_violations := decision_violations
  check_advisory adv := reasonOf (check_advisory U.C U.trust adv none)
  routed_through d dids := routed_through d ((strList (some dids)).getD [])
  canary_leaked := canary_leaked U.C
  forbidden output := (forbiddenTexts U output).getD []

/-! ## One answer -/

/-- What the decision does against the request, and the evidence of it. -/
def tampering (request decision : Value F) (advisory : Option (Value F)) :
    Except (Stop F) (List String × Value F) :=
  let violations := decision_violations decision request
  let evidence := .obj [("decision", decision), ("request", request)]
  match advisory with
  | none => .ok (violations, evidence)
  | some adv =>
      if getInt adv "epoch" = getInt decision "epoch" then
        match check_advisory U.C U.trust adv none with
        | .error (.raised e) => .error (.raised e)
        | .error (.refused _) => .ok (violations, evidence)
        | .ok () =>
            if routed_through decision (quarantinedOf adv) = [] then .ok (violations, evidence)
            else .ok (violations ++ ["quarantined-hop"],
              .obj [("advisory", adv), ("decision", decision), ("request", request)])
      else .ok (violations, evidence)

/-- All but the lease: the decision, the response, and the latches. -/
def inspectRoute (s : SafetyLayer F) (request decision response : Value F)
    (advisory : Option (Value F)) : Except (Stop F) Unit := do
  orFinding (check_decision U.C U.trust decision (some request))
    (fun why => reject s!"decision rejected: {why}")
  let (violations, evidence) ← tampering U request decision advisory
  hold (violations = [])
    (convict ("decision tampering: " ++ ", ".intercalate violations) .decider_tampering evidence)
  hold (getStr decision "mode" = some MODE_LOCKDOWN ∨
    s.ledger.is_latched (decider_target ((getStr decision "decider").getD "")) = false)
    (reject "the decider is latched")
  orFinding (check_response U.C U.trust response (some request) (some decision))
    (fun why => reject s!"response rejected: {why}")
  hold (excludes_node s.ledger (keyOf response).1 = false ∧
    s.ledger.is_latched (model_target (keyOf response).2.2) = false)
    (reject "the node or model is latched")

/-- The lease, the dates and the status. -/
def inspectLease (s : SafetyLayer F) (request response : Value F) (now : F) :
    Except (Stop F) Unit := do
  let violation : Finding F :=
    convict "lease violation" .provider_lease_violation (responseEvidence response)
  orFinding (check_lease U.C U.trust (leaseOf response)) (fun _ => violation)
  hold (getStr (leaseOf response) "subject" = getStr response "provider" ∧
    getStr (leaseOf response) "model" = getStr response "model") violation
  orFinding (s.leases.check U.C U.trust (leaseOf response) (keyOf response).1 (keyOf response).2.2
    now U.skew) reject
  let opens ← orFinding (Num.sub (numOf request "issued_at") (.float U.skew)) reject
  let closes ← orFinding (Num.add (.float now) (.float U.skew)) reject
  hold (opens.le (numOf response "issued_at") = true ∧
    (numOf response "issued_at").le closes = true) (reject "the response is dated outside the request's life")
  hold (getStr response "status" = some STATUS_OK)
    (reject ("refused by the model node: " ++
      (((getStr response "reason").filter (· ≠ "")).getD "no reason given")))

/-- What the answer says. -/
def screened (request response : Value F) : Except Raised (Finding F) :=
  let output := outputOf response
  if canary_leaked U.C output ((getStr (leaseOf response) "canary_hash").getD "") then
    .ok (convict "lease material in the answer" .provider_secret_exfiltration
      (responseEvidence response))
  else if scopesOf request = [] then .ok { ok := true }
  else
    match forbiddenTexts U output, overreachTexts U output (scopesOf request) with
    | some (b :: bad), _ =>
        .ok (convict ("forbidden proposal: " ++ ", ".intercalate (b :: bad))
          .model_forbidden_capability (.obj [("request", request), ("response", response)]))
    | some [], some (o :: more) => .ok (reject ("beyond the grant: " ++ ", ".intercalate (o :: more)))
    | some [], some [] => .ok { ok := true }
    | _, _ => .error .recursionError

namespace SafetyLayer

def recalled (s : SafetyLayer F) (key : Key) : Option (Value F) :=
  (s.seen.find? (fun e => decide (e.1 = key))).map Prod.snd

/-- Remembers an answer, and forgets the one used longest ago when there are
too many. -/
def remember (s : SafetyLayer F) (key : Key) (response : Value F) : SafetyLayer F :=
  let seen := s.seen.filter (fun e => decide (e.1 ≠ key)) ++ [(key, response)]
  { s with seen := seen.drop (seen.length - U.memory) }

/-- Judges one answer. -/
def inspect (s : SafetyLayer F) (request decision response : Value F) (now : F)
    (advisory : Option (Value F)) : Except Raised (Finding F) × SafetyLayer F :=
  match inspectRoute U s request decision response advisory >>= fun _ =>
      inspectLease U s request response now with
  | .error (.raised e) => (.error e, s)
  | .error (.found f) => (.ok f, s)
  | .ok () =>
      match s.recalled (keyOf response) with
      | some earlier =>
          if getStr earlier "output" = getStr response "output" then
            (screened U request response, s.remember U (keyOf response) response)
          else (.ok (convict "equivocation" .provider_equivocation
            (.obj [("a", earlier), ("b", response)])), s)
      | none => (screened U request response, s.remember U (keyOf response) response)

end SafetyLayer

/-! ## One request -/

/-- What the answers to a request came to. -/
structure Tally (F : Type) where
  /-- the first valid answer of each provider -/
  valid : List (String × Value F) := []
  reasons : List String := []
  evidence : List (Kind × Value F) := []
  rejected : List (String × String) := []

def Tally.count (t : Tally F) (response : Value F) (f : Finding F) : Tally F :=
  let who := (getStr response "provider").getD "?"
  { valid :=
      if f.ok = true ∧ who ∉ t.valid.map Prod.fst then t.valid ++ [(who, response)] else t.valid
    reasons := t.reasons ++ (if f.ok then [] else f.reason.toList)
    evidence := t.evidence ++ f.evidence.toList
    rejected := t.rejected ++ (if f.ok then [] else f.reason.toList.map (fun why => (who, why))) }

/-- Inspects one answer after the other, up to one that raises. -/
def tally (request : Value F) (now : F) (advisory : Option (Value F)) :
    List (Value F × Value F) → Tally F → SafetyLayer F →
      Except Raised (Tally F) × SafetyLayer F
  | [], t, s => (.ok t, s)
  | (decision, response) :: items, t, s =>
      match s.inspect U request decision response now advisory with
      | (.error e, s) => (.error e, s)
      | (.ok f, s) => tally request now advisory items (t.count response f) s

/-- Joins the first group whose first answer agrees, or opens one. -/
def placeAnswer (agree : String → String → Except Raised Bool) (r : String × Value F) :
    List (Grouping.Group (String × Value F)) →
      Except Raised (List (Grouping.Group (String × Value F)))
  | [] => .ok [(r, [])]
  | g :: gs => do
      if ← agree (outputOf g.1.2) (outputOf r.2) then pure ((g.1, g.2 ++ [r]) :: gs)
      else pure (g :: (← placeAnswer agree r gs))

def groupAnswers (agree : String → String → Except Raised Bool)
    (valid : List (String × Value F)) :
    Except Raised (List (Grouping.Group (String × Value F))) :=
  valid.foldlM (fun gs r => placeAnswer agree r gs) []

def sortedNames (l : List String) : List String := l.mergeSort (fun a b => decide (a ≤ b))

/-- The verdict on what the answers came to. -/
def verdictOf (needed : Int) (t : Tally F) : Except Raised (Verdict F) :=
  if t.evidence ≠ [] then
    .ok { status := .intercepted, reasons := t.reasons, evidence := t.evidence
          rejected := t.rejected }
  else if (t.valid.length : Int) < needed then
    .ok { status := .insufficient, rejected := t.rejected
          reasons := t.reasons ++ [s!"{t.valid.length} of {needed} answers valid"] }
  else do
    let gs ← groupAnswers U.agree t.valid
    match largest gs with
    | none => .error .valueError
    | some best =>
        let agreed := best.members.map Prod.fst
        if (best.size : Int) < needed then
          pure { status := .intercepted, rejected := t.rejected
                 reasons := t.reasons ++ ["the model nodes disagree"]
                 dissent := sortedNames (t.valid.map Prod.fst) }
        else
          pure { status := .accepted, output := some (outputOf best.1.2), providers := agreed
                 reasons := t.reasons, rejected := t.rejected
                 dissent := sortedNames
                   ((t.valid.map Prod.fst).filter (fun p => decide (p ∉ agreed))) }

/-- Decides the request. -/
def SafetyLayer.adjudicate (s : SafetyLayer F) (request : Value F)
    (items : List (Value F × Value F)) (now : F) (quorum : Option Int) (advisory : Option (Value F)) :
    Except Raised (Verdict F) × SafetyLayer F :=
  let needed := quorum.getD ((getInt request "quorum").getD 0)
  match tally U request now advisory items {} s with
  | (.error e, s) => (.error e, s)
  | (.ok t, s) => (verdictOf U needed t, s)

end

end Secdogie.Inference
