/-
# `Secdogie.Inference.Client` — the user's end of a request

A client signs a request, sends it to an entry of the mesh and judges what comes
back by itself.  A refusal or a timeout moves on to the next entry; in lockdown
it picks the providers itself and goes through a standby forwarder.  What it
draws at random and what its clock reads is given, by how often it was asked; a
step ends by itself or because something was raised, and what was done before
stays done.
-/
import Secdogie.Inference.Adjudicate
import Secdogie.Inference.Broker
import Secdogie.Lib.OrderedDict

namespace Secdogie.Inference

open Secdogie.Graph Secdogie.Identity

/-! ## Asks -/

inductive OutcomeStatus where
  | accepted
  | intercepted
  | refused
deriving DecidableEq

structure Client.Outcome where
  status : OutcomeStatus
  output : Option String := none
  providers : List String := []
  reasons : List String := []
  mode : String := MODE_NORMAL
  via : Option String := none

/-- `_Ask` -/
structure Ask (F : Type) where
  models : List String
  text : String
  scopes : List String
  quorum : Int
  ttl : F
  request : Option (Value F) := none
  rhash : String := ""
  mode : String := MODE_NORMAL
  tries : Nat := 0
  deadline : F
  tried : List String := []
  /-- the nodes the current request went to that did not refuse it yet -/
  awaiting : List String := []
  unresponsive : List String := []
  waiting_dir : Bool := false
  last_reason : String := ""
  outcome : Option Client.Outcome := none

inductive Frame (F : Type) where
  | dir_query
  | submit (request : Value F)

/-- What a client is set up with. -/
structure ClientConfig (F : Type) extends SafetyConfig F where
  identity : Signer C
  entries : List String
  standby : List String
  /-- at least one -/
  fanout : Nat
  timeout : F
  max_tries : Int
  /-- `HELLO_EVERY` -/
  hello_every : F
  /-- `0.0` -/
  zero : F
  /-- `secrets.token_hex(16)`, the n-th time -/
  token : Nat → String
  /-- `float(self.clock())`, the n-th time -/
  clock : Nat → F

structure Client (F : Type) where
  safety : SafetyLayer F
  asks : OrderedDict String (Ask F) := .empty
  by_rhash : OrderedDict String String := .empty
  /-- the requests of the asks already decided -/
  late : OrderedDict String (Value F) := .empty
  next_hello : F
  sent : List (String × Frame F) := []
  tokens : Nat := 0
  reads : Nat := 0

/-- How a step ends. -/
inductive Fate where
  | returned
  | raised
  /-- it raised because a request could not be made -/
  | unsigned
deriving DecidableEq

abbrev Step (F : Type) := Client F × Fate

section

variable {F : Type}

/-- What follows, unless something was raised. -/
def Step.andThen (s : Step F) (next : Client F → Step F) : Step F :=
  match s with
  | (c, .returned) => next c
  | (c, fate) => (c, fate)

namespace Client

def send (c : Client F) (did : String) (frame : Frame F) : Client F :=
  { c with sent := c.sent ++ [(did, frame)] }

def put (c : Client F) (handle : String) (ask : Ask F) : Client F :=
  { c with asks := c.asks.set handle ask }

/-- `_finish` -/
def finish (c : Client F) (handle : String) (ask : Ask F) (outcome : Outcome) : Client F :=
  { c with
    asks := c.asks.set handle { ask with outcome := some outcome }
    by_rhash := c.by_rhash.pop ask.rhash
    late :=
      match ask.request with
      | none => c.late
      | some request =>
          let late := c.late.set ask.rhash request
          if 256 < late.items.length then late.pop (late.keys.headD "") else late }

/-- Goes through the asks that are there, in their order. -/
def each (op : Client F → String → Ask F → Step F) : List String → Client F → Step F
  | [], c => (c, .returned)
  | handle :: handles, c =>
      match c.asks.get handle with
      | none => each op handles c
      | some ask => Step.andThen (op c handle ask) (each op handles)

end Client

/-! ## Requests -/

variable [PyNumber F] (U : ClientConfig F)

def request_body (req_id : String) (ask : Ask F) (quorum : Int) (pins : List (String × String)) (now : F) :
    List (String × Value F) :=
  [("expires_at", .float (PyFloat.add now ask.ttl)), ("input", .str ask.text), ("issued_at", .float now),
    ("models", .arr ((sortedSet ask.models).map .str)),
    ("pins", .arr (pins.map fun p => .arr [.str p.1, .str p.2])), ("quorum", .int quorum),
    ("req_id", .str req_id), ("scopes", .arr ((sortedSet ask.scopes).map .str)), ("type", .str REQUEST),
    ("user", .str U.identity.did)]

/-- The signed request; `none` when it raises. -/
def make_request (req_id : String) (ask : Ask F) (quorum : Int) (pins : List (String × String)) (now : F) :
    Option (Value F) :=
  let body := request_body U req_id ask quorum pins now
  match request_shape U.C (.obj body) with
  | .ok () => some (sign_payload U.identity body)
  | .error _ => none

/-! ## Submitting -/

namespace Client

variable (c : Client F) (handle : String)

def lockdown : Bool := c.safety.ledger.lockdown

/-- `_sign`; `none` for the ask when it raises -/
def sign (ask : Ask F) (quorum : Int) (pins : List (String × String)) : Client F × Option (Ask F) :=
  let by_rhash := if ask.rhash = "" then c.by_rhash else c.by_rhash.pop ask.rhash
  match make_request U (U.token c.tokens) ask quorum pins (U.clock c.reads) with
  | none => ({ c with by_rhash, tokens := c.tokens + 1, reads := c.reads + 1 }, none)
  | some request =>
      let rhash := digest U.C request
      ({ c with by_rhash := by_rhash.set rhash handle, tokens := c.tokens + 1, reads := c.reads + 2 },
        some { ask with
          request := some request
          rhash := rhash
          tries := ask.tries + 1
          deadline := PyFloat.add (U.clock (c.reads + 1)) U.timeout })

/-- The entries to try next. -/
def fresh (ask : Ask F) : List String :=
  let usable := U.entries.filter (fun e => !excludes_node c.safety.ledger e)
  match usable.filter (fun e => decide (e ∉ ask.tried)) with
  | [] => usable
  | e :: es => e :: es

/-- `_submit_normal` -/
def submit_normal (ask : Ask F) : Step F :=
  let fresh := c.fresh U ask
  if fresh = [] then
    (c.finish handle ask { status := .refused, reasons := ["no usable entry"] }, .returned)
  else
    let ask := { ask with mode := MODE_NORMAL }
    match c.sign U handle ask ask.quorum [] with
    | (c, none) => (c.put handle ask, .unsigned)
    | (c, some signed) =>
        let entries := fresh.take U.fanout
        ((entries.foldl (fun c entry => c.send entry (.submit (signed.request.getD .null))) c).put handle
          { signed with awaiting := entries, tried := ask.tried ++ entries }, .returned)

/-- `_forwarder` -/
def forwarder (avoid : List String) : Option String :=
  U.standby.find? fun did =>
    decide (did ∉ avoid) && !excludes_node c.safety.ledger did && !U.trust.deciders did

/-- A round of `pick_pins`, over one candidate. -/
def pickOne (quorum : Int) (distinct : Bool) (pins : List (String × String)) (p : String × String) :
    List (String × String) :=
  if quorum ≤ pins.length then pins
  else if pins.any (fun q => q.1 = p.1) || (distinct && pins.any (fun q => q.2 = p.2)) then pins
  else pins ++ [p]

def pick_pins (models : List String) (quorum : Int) (now : F) (avoid : List String) :
    List (String × String) :=
  let order := fun m => (sortedSet models).idxOf m
  let eligible := (c.safety.leases.eligible models now).filter fun e =>
    decide (e.1 ∉ avoid) && !excludes_node c.safety.ledger e.1 &&
      !c.safety.ledger.is_latched (model_target e.2.1)
  let cands := (eligible.map fun e => (e.1, e.2.1)).mergeSort fun a b =>
    if order a.2 = order b.2 then decide (a.1 ≤ b.1) else decide (order a.2 ≤ order b.2)
  cands.foldl (pickOne quorum false) (cands.foldl (pickOne quorum true) [])

/-- `_submit_lockdown`; the incidents that are sent ahead of the request, for
the forwarder to verify, are left out -/
def submit_lockdown (ask : Ask F) (now : F) : Step F :=
  let c := { c with by_rhash := c.by_rhash.pop ask.rhash }
  let ask := { ask with mode := MODE_LOCKDOWN, awaiting := [] }
  match c.forwarder U ask.unresponsive with
  | none =>
      (c.finish handle ask
        { status := .refused, reasons := ["lockdown: no standby forwarder"], mode := MODE_LOCKDOWN }, .returned)
  | some forwarder =>
      let quorum := max ask.quorum LOCKDOWN_QUORUM
      let pins := c.pick_pins ask.models quorum now ask.unresponsive
      if (pins.length : Int) < quorum then
        if ask.waiting_dir then
          (c.finish handle ask
            { status := .refused, mode := MODE_LOCKDOWN
              reasons := [s!"lockdown: {pins.length} of {quorum} independent model nodes available"] }, .returned)
        else
          ((c.send forwarder .dir_query).put handle
            { ask with
              waiting_dir := true
              deadline := PyFloat.add now U.timeout
              tried := ask.tried ++ [forwarder] }, .returned)
      else
        let ask := { ask with waiting_dir := false }
        match c.sign U handle ask quorum pins with
        | (c, none) => (c.put handle ask, .unsigned)
        | (c, some signed) =>
            ((c.send forwarder (.submit (signed.request.getD .null))).put handle
              { signed with tried := ask.tried ++ [forwarder], awaiting := [forwarder] }, .returned)

/-- `_submit` -/
def submit (ask : Ask F) (now : F) : Step F :=
  if ask.outcome.isSome then (c.put handle ask, .returned)
  else if U.max_tries ≤ ask.tries then
    (c.finish handle ask
      { status := .refused, mode := ask.mode
        reasons := "out of tries" :: (if ask.last_reason = "" then [] else [ask.last_reason]) }, .returned)
  else if c.lockdown then c.submit_lockdown U handle ask now
  else c.submit_normal U handle ask

/-! ## What comes in -/

/-- The incident is verified and new. -/
def isNews (obj : Value F) : Bool :=
  (verify_incident U.C U.trust (checks U.toSafetyConfig) obj).any fun inc =>
    !c.safety.ledger.incidents.contains inc.incident_id

def learn (lease : Value F) : Client F :=
  { c with safety := { c.safety with leases := c.safety.leases.add U.C U.trust lease } }

/-- The leases that come with answers. -/
def learn_items (items : List (Value F × Value F)) : Client F :=
  items.foldl (fun c p => c.learn U ((get p.2 "lease").getD .null)) c

def on_incident (now : F) : Step F :=
  each (fun c handle ask =>
    if ask.outcome.isNone ∧ ask.mode ≠ MODE_LOCKDOWN then c.submit U handle ask now else (c, .returned))
    c.asks.keys c

/-- `absorb`, of what concerns a client -/
def absorb (obj : Value F) : Step F :=
  if getStr obj "type" = some INCIDENT then
    let ledger := c.safety.ledger.add U.C U.trust (checks U.toSafetyConfig) obj
    let c' := { c with safety := { c.safety with ledger }, reads := c.reads + 1 }
    if c.isNews U obj then c'.on_incident U (U.clock c.reads) else (c', .returned)
  else if getStr obj "type" = some RESET then
    ({ c with safety := { c.safety with ledger := c.safety.ledger.reset U.C U.trust obj } }, .returned)
  else if getStr obj "type" = some LEASE_REVOCATION then
    ({ c with safety := { c.safety with leases := c.safety.leases.revoke U.C U.trust obj } }, .returned)
  else (c, .returned)

def make_incident (kind : Kind) (evidence : Value F) (now : F) : Value F :=
  sign_payload U.identity
    [("evidence", evidence), ("incident_id", .str (incident_id U.C kind evidence)), ("issued_at", .float now),
      ("kind", .str kind.text), ("reporter", .str U.identity.did), ("type", .str INCIDENT)]

/-- `_publish_evidence` -/
def publish_evidence : List (Kind × Value F) → Client F → Step F
  | [], c => (c, .returned)
  | (kind, ev) :: evidence, c =>
      Step.andThen (absorb U { c with reads := c.reads + 1 } (make_incident U kind ev (U.clock c.reads)))
        (publish_evidence evidence)

/-- The decisions and responses of a result; `none` when there is nothing to
iterate. -/
def itemsOf (f : Value F) : Option (List (Value F × Value F)) :=
  match get f "items" with
  | some (.arr l) =>
      some (l.filterMap fun x =>
        match x with
        | .arr [.obj d, .obj r] => some (.obj d, .obj r)
        | _ => none)
  | some (.bool true) => none
  | some (.int n) => if n = 0 then some [] else none
  | some (.float f) => if PyNumber.leInt f 0 && PyNumber.intLe 0 f then some [] else none
  | _ => some []

/-- Who answered; `none` if a provider cannot be hashed. -/
def answered : List (Value F × Value F) → Option (List String)
  | [] => some []
  | (_, r) :: items =>
      match get r "provider" with
      | some (.arr _) | some (.obj _) => none
      | some (.str p) => (answered items).map (p :: ·)
      | _ => answered items

/-- `_on_result`, for an ask that is still open -/
def judge (src handle : String) (ask : Ask F) (request : Value F) (items : List (Value F × Value F)) (now : F) :
    Step F :=
  let quorum := (getInt request "quorum").getD 0
  let needed := if ask.mode = MODE_LOCKDOWN then max quorum LOCKDOWN_QUORUM else quorum
  let (res, safety) := c.safety.adjudicate U.toSafetyConfig request items now (some needed) none
  let c := { c with safety }
  match res with
  | .error _ => (c, .raised)
  | .ok verdict =>
      let intercepted : Outcome :=
        { status := .intercepted, reasons := verdict.reasons, mode := ask.mode, via := some src }
      if verdict.evidence ≠ [] then publish_evidence U verdict.evidence (c.finish handle ask intercepted)
      else
        match verdict.status with
        | .accepted =>
            (c.finish handle ask
              { status := .accepted, output := verdict.output, providers := verdict.providers
                reasons := verdict.reasons, mode := ask.mode, via := some src }, .returned)
        | .intercepted => (c.finish handle ask intercepted, .returned)
        | .insufficient =>
            if ask.mode = MODE_LOCKDOWN then
              match answered items with
              | none => (c, .raised)
              | some providers =>
                  let silent := ((pinsOf request).map Prod.fst).filter fun p => decide (p ∉ providers)
                  c.submit U handle { ask with unresponsive := ask.unresponsive ++ silent } now
            else if src ∈ ask.awaiting then
              let ask := { ask with
                awaiting := ask.awaiting.filter (fun d => decide (d ≠ src))
                last_reason := s!"the answers relayed by {src} did not verify" }
              if ask.awaiting = [] then c.submit U handle ask now else (c.put handle ask, .returned)
            else (c, .returned)

/-- `_on_result` -/
def on_result (src : String) (f : Value F) (now : F) : Step F :=
  match itemsOf f with
  | none => (c, .raised)
  | some items =>
      let c := c.learn_items U items
      match get f "request_hash" with
      | some (.arr _) | some (.obj _) => (c, .raised)
      | some (.str rhash) =>
          match (c.by_rhash.get rhash).bind fun handle => (c.asks.get handle).map fun ask => (handle, ask) with
          | some (handle, ask) =>
              match ask.request with
              | none => (c, .raised)
              | some request => c.judge U src handle ask request items now
          | none =>
              match c.late.get rhash with
              | none => (c, .returned)
              | some request =>
                  let (res, safety) := c.safety.adjudicate U.toSafetyConfig request items now none none
                  match res with
                  | .error _ => ({ c with safety }, .raised)
                  | .ok verdict => publish_evidence U verdict.evidence { c with safety }
      | _ => (c, .returned)

/-- The text after the last blank. -/
def lastWord (s : String) : String := String.ofList (s.toList.reverse.takeWhile (· ≠ ' ')).reverse

/-- `_on_refused` -/
def on_refused (src : String) (f : Value F) : Step F :=
  match get f "request_hash" with
  | some (.arr _) | some (.obj _) => (c, .raised)
  | some (.str rhash) =>
      match (c.by_rhash.get rhash).bind fun handle => (c.asks.get handle).map fun ask => (handle, ask) with
      | none => (c, .returned)
      | some (handle, ask) =>
          if ask.outcome.isSome ∨ src ∉ ask.awaiting then (c, .returned)
          else
            let reason := (getStr f "reason").getD ""
            let ask := { ask with
              awaiting := ask.awaiting.filter (fun d => decide (d ≠ src))
              last_reason := reason }
            let now := U.clock c.reads
            let c' := { c with reads := c.reads + 1 }
            if "intercepted".toList.isPrefixOf reason.toList then
              (c.finish handle ask
                { status := .intercepted, reasons := [reason], mode := ask.mode, via := some src }, .returned)
            else if "lockdown".toList.isPrefixOf reason.toList ∧ ask.mode ≠ MODE_LOCKDOWN then
              c'.submit_lockdown U handle ask now
            else if ask.awaiting ≠ [] then (c.put handle ask, .returned)
            else if ask.mode = MODE_LOCKDOWN ∧ "not eligible".toList <:+: reason.toList then
              c'.submit U handle { ask with unresponsive := ask.unresponsive ++ [lastWord reason] } now
            else c'.submit U handle ask now
  | _ => (c, .returned)

def on_directory (now : F) : Step F :=
  each (fun c handle ask =>
    if ask.waiting_dir = true ∧ ask.outcome.isNone then c.submit_lockdown U handle ask now else (c, .returned))
    c.asks.keys c

/-- The ask whose time is up, before it is submitted again. -/
def given_up (ask : Ask F) : Ask F :=
  match ask.tried.getLast? with
  | none => ask
  | some last =>
      if ask.mode = MODE_LOCKDOWN then
        { ask with unresponsive := ask.unresponsive ++ [last], waiting_dir := false }
      else ask

def on_tick (now : F) : Step F :=
  let c :=
    if PyFloat.le c.next_hello now then
      (U.entries ++ U.standby).foldl (fun c did => c.send did .dir_query)
        { c with next_hello := PyFloat.add now U.hello_every }
    else c
  each (fun c handle ask =>
    if ask.outcome.isNone ∧ PyFloat.le ask.deadline now then c.submit U handle (given_up ask) now else (c, .returned))
    c.asks.keys c

/-- `ask`, with the handle that it draws -/
def ask (models : List String) (text : String) (scopes : List String) (quorum : Int) (ttl : F) : Step F :=
  let ask : Ask F := { models, text, scopes, quorum, ttl, deadline := U.zero }
  submit U { (c.put handle ask) with reads := c.reads + 1 } handle ask (U.clock c.reads)

end Client

/-! ## Runs -/

inductive Event (F : Type) where
  | ask (handle : String) (models : List String) (text : String) (scopes : List String) (quorum : Int) (ttl : F)
  | result (src : String) (frame : Value F) (now : F)
  | refused (src : String) (frame : Value F)
  | learn (lease : Value F)
  | absorb (obj : Value F)
  | directory (now : F)
  | tick (now : F)

namespace Client

def start (safety : SafetyLayer F) : Client F := { safety, next_hello := U.zero }

def step (c : Client F) : Event F → Step F
  | .ask handle models text scopes quorum ttl => c.ask U handle models text scopes quorum ttl
  | .result src frame now => c.on_result U src frame now
  | .refused src frame => c.on_refused U src frame
  | .learn lease => (c.learn U lease, .returned)
  | .absorb obj => c.absorb U obj
  | .directory now => c.on_directory U now
  | .tick now => c.on_tick U now

/-- What the client is after these events, whatever they raised. -/
def run (c : Client F) (events : List (Event F)) : Client F := events.foldl (fun c e => (c.step U e).1) c

end Client

end

end Secdogie.Inference
