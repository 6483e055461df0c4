/-
# `Secdogie.Inference.Protocol` — the objects of the mesh, and what each must satisfy

Requests, decisions, responses and advisories are JSON objects that their
author signs.  A check of one passes, or refuses and says why, or raises: an
integer may be too large for a float, and a list is no member of a set.
-/
import Secdogie.Graph.CanonRoundTrip
import Secdogie.Identity.Num
import Secdogie.Inference.Mutiny

namespace Secdogie.Inference

open Secdogie.Graph Secdogie.Identity

/-! ## Checks -/

/-- What Python raises. -/
inductive Raised where
  | typeError
  | overflowError
  | valueError
  | recursionError
deriving DecidableEq

/-- How a check ends that does not pass. -/
inductive Fault where
  | refused (why : String)
  | raised (e : Raised)
deriving DecidableEq

abbrev Check := Except Fault

def ensure (p : Prop) [Decidable p] (why : String) : Check Unit :=
  if p then .ok () else .error (.refused why)

def orRefuse {α : Type} (o : Option α) (why : String) : Check α :=
  match o with
  | some a => .ok a
  | none => .error (.refused why)

/-- The reason a caller sees, if the check does not pass. -/
def reasonOf {α : Type} : Check α → Option String
  | .ok _ => none
  | .error (.refused why) => some why
  | .error (.raised .typeError) => some "TypeError"
  | .error (.raised .overflowError) => some "OverflowError"
  | .error (.raised .valueError) => some "ValueError"
  | .error (.raised .recursionError) => some "RecursionError"

@[simp] theorem ensure_ok {p : Prop} [Decidable p] {why : String} : ensure p why = .ok () ↔ p := by
  unfold ensure
  split_ifs with h
  · exact iff_of_true rfl h
  · exact iff_of_false nofun h

@[simp] theorem orRefuse_ok {α : Type} {o : Option α} {why : String} {a : α} :
    orRefuse o why = .ok a ↔ o = some a := by
  cases o with
  | none => simp [orRefuse]
  | some b => simp [orRefuse]

theorem reasonOf_none {α : Type} {c : Check α} : reasonOf c = none ↔ ∃ a, c = .ok a := by
  rcases c with (why | e) | a
  · simp [reasonOf]
  · cases e <;> simp [reasonOf]
  · simp [reasonOf]

theorem reasonOf_unit {c : Check Unit} : reasonOf c = none ↔ c = .ok () := by
  rw [reasonOf_none]
  exact ⟨fun ⟨_, h⟩ => h, fun h => ⟨(), h⟩⟩

/-! ## Numbers -/

/-- A JSON number. -/
inductive Num (F : Type) where
  | int (n : Int)
  | float (f : F)

/-- Floats that are compared with integers, which Python does without rounding
either. -/
class PyNumber (F : Type) extends PyFloat F where
  ltInt : F → Int → Bool
  leInt : F → Int → Bool
  intLt : Int → F → Bool
  intLe : Int → F → Bool

instance : PyNumber (Option Int) :=
  { (inferInstance : PyFloat (Option Int)) with
    ltInt := fun f n => f.any (fun m => decide (m < n))
    leInt := fun f n => f.any (fun m => decide (m ≤ n))
    intLt := fun n f => f.any (fun m => decide (n < m))
    intLe := fun n f => f.any (fun m => decide (n ≤ m)) }

namespace Num

variable {F : Type} [PyNumber F]

def lt : Num F → Num F → Bool
  | .int a, .int b => decide (a < b)
  | .int a, .float b => PyNumber.intLt a b
  | .float a, .int b => PyNumber.ltInt a b
  | .float a, .float b => PyFloat.lt a b

def le : Num F → Num F → Bool
  | .int a, .int b => decide (a ≤ b)
  | .int a, .float b => PyNumber.intLe a b
  | .float a, .int b => PyNumber.leInt a b
  | .float a, .float b => PyFloat.le a b

/-- An operand of an operation on floats. -/
def toFloat : Num F → Check F
  | .float f => .ok f
  | .int n =>
      match PyFloat.ofInt n with
      | some f => .ok f
      | none => .error (.raised .overflowError)

def sub : Num F → Num F → Check (Num F)
  | .int a, .int b => .ok (.int (a - b))
  | a, b => do
      let x ← a.toFloat
      let y ← b.toFloat
      pure (.float (PyFloat.sub x y))

def add : Num F → Num F → Check (Num F)
  | .int a, .int b => .ok (.int (a + b))
  | a, b => do
      let x ← a.toFloat
      let y ← b.toFloat
      pure (.float (PyFloat.add x y))

end Num

/-! ## Constants -/

def REQUEST : String := "secdogie/inference/request/v1"
def DECISION : String := "secdogie/inference/decision/v1"
def RESPONSE : String := "secdogie/inference/response/v1"
def ADVISORY : String := "secdogie/inference/advisory/v1"

def MODE_NORMAL : String := "normal"
def MODE_DEGRADED : String := "degraded"
def MODE_LOCKDOWN : String := "lockdown"
def MODES : List String := [ MODE_NORMAL, MODE_DEGRADED, MODE_LOCKDOWN]

def VIA_MESH : String := "mesh"
def VIA_CENTRAL : String := "central"

def STATUS_REFUSED : String := "refused"

def MAX_INPUT : Nat := 8000
def MAX_OUTPUT : Nat := 8000
def MAX_MODELS : Nat := 4
def MAX_QUORUM : Nat := 3
def LOCKDOWN_QUORUM : Nat := 2
def MAX_HOPS : Nat := 8
def MAX_ATTEMPTS : Nat := 3
/-- `MAX_TTL` and `MAX_SKEW`, in seconds -/
def MAX_TTL : Int := 300
def MAX_SKEW : Int := 120
def MAX_LISTED : Nat := 64

def GRANTABLE_SCOPES : List String :=
  ["observe.read", "physical.click", "physical.type", "physical.key", "physical.scroll",
    "physical.drag", "system.open", "process.run", "network.post", "network.send"]

/-- One way to an answer: which provider, with which model, along which path. -/
structure Leg where
  provider : String
  model : String
  path : List String
  via : String := VIA_MESH
deriving DecidableEq

namespace Leg

variable {F : Type}

def to_wire (l : Leg) : Value F :=
  .obj [("model", .str l.model), ("path", .arr (l.path.map .str)), ("provider", .str l.provider),
    ("via", .str l.via)]

/-- The nodes between the decider and the provider. -/
def interior (l : Leg) : List String := l.path.tail.dropLast

def from_wire (v : Value F) : Option Leg := do
  let provider ← getStr v "provider"
  let model ← getStr v "model"
  let path ← strList (get v "path")
  let via ← getStr v "via"
  pure ⟨provider, model, path, via⟩

end Leg

section

variable {F : Type}

/-- The items of a member that is a list. -/
def getArr (v : Value F) (k : String) : Option (List (Value F)) := (get v k).bind Value.asArr

def is_model (s : String) : Bool :=
  matchesAll (fun c => c.isAlphanum || c ∈ ['.', '_', ':', '/', '@', '+', '-']) 1 128 s

def isHex64At (v : Value F) (k : String) : Bool := (getStr v k).any is_hex64

variable (C : Crypto)

def is_did (s : String) : Bool := (C.publicKey s).isSome

/-- `sorted(set(l)) == l` -/
def Sorted (l : List String) : Prop := l.Pairwise (· < ·)

instance (l : List String) : Decidable (Sorted l) := inferInstanceAs (Decidable (l.Pairwise _))

def didList (v : Option (Value F)) (limit : Nat) : Option (List String) :=
  (strList v).filter (fun l => decide (l.length ≤ limit ∧ Sorted l) && l.all (is_did C))

/-- A pair of two DIDs. -/
def didPair : Value F → Bool
  | .arr [.str a, .str b] => is_did C a && is_did C b && decide (a ≠ b)
  | _ => false

def pairList (v : Option (Value F)) (limit : Nat) : Bool :=
  (v.bind Value.asArr).any (fun l => decide (l.length ≤ limit) && l.all (didPair C))

end

section

variable {F : Type} [PyNumber F] (C : Crypto) (trust : TrustRoots)

/-- `is_num`, with the number it is. -/
def numAt (v : Value F) (k : String) : Check (Option (Num F)) :=
  match get v k with
  | some (.int n) =>
      match (PyFloat.ofInt n : Option F) with
      | some _ => .ok (some (.int n))
      | none => .error (.raised .overflowError)
  | some (.float f) => if PyFloat.isFinite f then .ok (some (.float f)) else .ok none
  | _ => .ok none

def getNum (v : Value F) (k why : String) : Check (Num F) := do orRefuse (← numAt v k) why

/-- `signed_by`, as a check. -/
def signedBy (obj : Value F) (type field : String) (roots : String → Bool) : Check Unit :=
  match signed_by C obj type field roots with
  | none => .ok ()
  | some why => .error (.refused why)

/-! ## Requests -/

/-- A pin: a provider, and one of the request's models. -/
def pinOf (models : List String) : Value F → Option (String × String)
  | .arr [.str p, .str m] => if is_did C p = true ∧ m ∈ models then some (p, m) else none
  | _ => none

def pinsShape (models : List String) : List String → List (Value F) → Check Unit
  | _, [] => .ok ()
  | pinned, pin :: rest => do
      let (p, _) ← orRefuse (pinOf C models pin)
        "a pin must be [provider DID, one of the request's models]"
      ensure (p ∉ pinned) "a provider is pinned twice"
      pinsShape models (p :: pinned) rest

def request_shape (obj : Value F) : Check Unit := do
  ensure ((getStr obj "req_id").any is_hex32 = true) "bad req_id"
  let listed ← orRefuse (getArr obj "models") s!"a request names 1..{MAX_MODELS} models"
  ensure (1 ≤ listed.length ∧ listed.length ≤ MAX_MODELS)
    s!"a request names 1..{MAX_MODELS} models"
  let models ← orRefuse (strList (get obj "models")) "bad model list"
  ensure (models.all is_model = true ∧ Sorted models) "bad model list"
  let input ← orRefuse (getStr obj "input") "input missing or too long"
  ensure (input.length ≤ MAX_INPUT) "input missing or too long"
  let scopes ← orRefuse (strList (get obj "scopes")) "bad scopes"
  ensure (Sorted scopes) "bad scopes"
  ensure (∀ s ∈ scopes, s ∈ GRANTABLE_SCOPES) "a scope is not grantable"
  let quorum ← orRefuse (getInt obj "quorum") s!"quorum must be 1..{MAX_QUORUM}"
  ensure (1 ≤ quorum ∧ quorum ≤ MAX_QUORUM) s!"quorum must be 1..{MAX_QUORUM}"
  let pins ← orRefuse (getArr obj "pins") "bad pins"
  ensure (pins.length ≤ MAX_QUORUM) "bad pins"
  pinsShape C models [] pins
  ensure (pins.isEmpty = true ∨ quorum ≤ pins.length) "fewer pins than the quorum"
  let iss ← getNum obj "issued_at" "bad validity window"
  let exp ← getNum obj "expires_at" "bad validity window"
  let ttl ← exp.sub iss
  ensure (Num.lt (.int 0) ttl = true ∧ ttl.le (.int MAX_TTL) = true) "bad validity window"

/-- Signature and shape, without the clock. -/
def request_evidence (obj : Value F) : Check Unit := do
  signedBy C obj REQUEST "user" trust.users
  request_shape C obj

def request_evidence_ok (obj : Value F) : Bool := (request_evidence C trust obj).isOk

def check_request (obj : Value F) (now : F) : Check Unit := do
  request_evidence C trust obj
  let iss ← getNum obj "issued_at" "bad validity window"
  let exp ← getNum obj "expires_at" "bad validity window"
  let limit ← Num.add (.float now) (.int MAX_SKEW)
  ensure (limit.lt iss = false) "issued in the future"
  ensure (exp.le (.float now) = false) "expired"

/-! ## Decisions -/

/-- `mode in MODES`, for which a mode has to be hashable. -/
def modeShape (v : Option (Value F)) : Check Unit :=
  match v with
  | some (.arr _) | some (.obj _) => .error (.raised .typeError)
  | some (.str mode) => ensure (mode ∈ MODES) "unknown mode"
  | _ => .error (.refused "unknown mode")

/-- The path of a leg goes the way the leg says. -/
def viaShape (via : Option String) (path : List String) : Check Unit :=
  if via = some VIA_CENTRAL then
    ensure (path.length = 3 ∧ (path[1]?).any trust.coordinators = true)
      "a central leg is decider -> coordinator -> provider"
  else if via = some VIA_MESH then
    ensure (path.tail.dropLast.any trust.coordinators = false)
      "a mesh leg does not pass through the coordinator"
  else .error (.refused "unknown via")

/-- The provider of a leg in good shape. -/
def legShape (decider : Option String) (leg : Value F) : Check String := do
  let provider ← orRefuse ((getStr leg "provider").filter (is_did C)) "bad leg"
  ensure ((getStr leg "model").any is_model = true) "bad leg"
  let path ← orRefuse (strList (get leg "path")) "bad leg path"
  ensure (2 ≤ path.length ∧ path.length ≤ MAX_HOPS ∧ path.all (is_did C) = true) "bad leg path"
  ensure path.Nodup "a leg path visits a node twice"
  ensure (path.head? = decider ∧ path.getLast? = some provider)
    "a leg path must run from the decider to its provider"
  viaShape trust (getStr leg "via") path
  pure provider

def legsShape (decider : Option String) : List String → List (Value F) → Check Unit
  | _, [] => .ok ()
  | providers, leg :: rest => do
      let provider ← legShape C trust decider leg
      ensure (provider ∉ providers) "a provider appears on two legs"
      legsShape decider (provider :: providers) rest

def decision_shape (obj : Value F) : Check Unit := do
  modeShape (get obj "mode")
  ensure (isHex64At obj "request_hash" = true) "bad request_hash"
  let epoch ← orRefuse (getInt obj "epoch") "bad epoch"
  ensure (0 ≤ epoch) "bad epoch"
  let attempt ← orRefuse (getInt obj "attempt") "bad attempt"
  ensure (0 ≤ attempt ∧ attempt < MAX_ATTEMPTS) "bad attempt"
  let _ ← getNum obj "issued_at" "bad issued_at"
  let legs ← orRefuse (getArr obj "legs") s!"a decision has 1..{MAX_QUORUM} legs"
  ensure (1 ≤ legs.length ∧ legs.length ≤ MAX_QUORUM) s!"a decision has 1..{MAX_QUORUM} legs"
  legsShape C trust (getStr obj "decider") [] legs

/-- Who may sign a decision in this mode. -/
def signers (mode : Option String) : String → Bool :=
  if mode = some MODE_LOCKDOWN then trust.mesh else trust.deciders

def check_decision (obj : Value F) (request : Option (Value F)) : Check Unit := do
  signedBy C obj DECISION "decider" (signers trust (getStr obj "mode"))
  decision_shape C trust obj
  match request with
  | none => pure ()
  | some req =>
      ensure (getStr obj "request_hash" = some (digest C req))
        "decision is for a different request"

end

section

variable {F : Type}

/-- The legs of a decision. -/
def legsOf (decision : Value F) : List Leg :=
  ((getArr decision "legs").getD []).filterMap Leg.from_wire

/-- The pins of a request. -/
def pinsOf (request : Value F) : List (String × String) :=
  ((getArr request "pins").getD []).filterMap (fun pin =>
    match pin with
    | .arr [.str p, .str m] => some (p, m)
    | _ => none)

/-- What a decision in good shape does against the user's request. -/
def decision_violations (decision request : Value F) : List String :=
  let legs := legsOf decision
  let quorum := (getInt request "quorum").getD 0
  let models := (strList (get request "models")).getD []
  let pins := pinsOf request
  let lockdown := getStr decision "mode" = some MODE_LOCKDOWN
  let needed := if lockdown then max quorum LOCKDOWN_QUORUM else quorum
  (if (legs.length : Int) < needed then ["quorum-downgrade"] else []) ++
    (if ∃ l ∈ legs, l.model ∉ models then ["model-substitution"] else []) ++
    (if pins ≠ [] ∧ (legs.map (fun l => (l.provider, l.model))).toFinset ≠ pins.toFinset then
      ["pin-violation"] else []) ++
    (if lockdown ∧ ∃ l ∈ legs, l.via ≠ VIA_MESH ∨ l.path.length ≠ 2 then ["lockdown-shape"]
      else [])

/-- The DIDs that a decision's legs pass through, the decider itself apart. -/
def routed_through (decision : Value F) (dids : List String) : List String :=
  let hit := (legsOf decision).flatMap (fun l => l.path.tail.filter (fun d => decide (d ∈ dids)))
  hit.dedup.mergeSort (fun a b => decide (a ≤ b))

end

section

variable {F : Type} [PyNumber F] (C : Crypto) (trust : TrustRoots)

/-! ## Responses -/

def response_shape (obj : Value F) : Check Unit := do
  ensure (isHex64At obj "request_hash" = true ∧ isHex64At obj "decision_hash" = true) "bad hashes"
  ensure ((getStr obj "model").any is_model = true ∧
    ((get obj "lease").bind Value.asObj).isSome = true) "bad model or lease"
  let status ← orRefuse (getStr obj "status") "bad status"
  ensure (status = STATUS_OK ∨ status = STATUS_REFUSED) "bad status"
  let output ← orRefuse (getStr obj "output") "output missing or too long"
  ensure (output.length ≤ MAX_OUTPUT) "output missing or too long"
  ensure (status = STATUS_REFUSED → output = "") "a refusal carries no output"
  let reason ← orRefuse (getStr obj "reason") "bad reason"
  ensure (reason.length ≤ MAX_REASON) "bad reason"
  let _ ← getNum obj "issued_at" "bad issued_at"

/-- The response answers this request. -/
def answersRequest (obj : Value F) : Option (Value F) → Check Unit
  | none => .ok ()
  | some req =>
      ensure (getStr obj "request_hash" = some (digest C req))
        "response is for a different request"

/-- The response answers this decision, which gave its provider a leg. -/
def answersDecision (obj : Value F) : Option (Value F) → Check Unit
  | none => .ok ()
  | some d => do
      ensure (getStr obj "decision_hash" = some (digest C d) ∧
        getStr obj "request_hash" = getStr d "request_hash") "response is for a different decision"
      ensure (∃ l ∈ legsOf d, some l.provider = getStr obj "provider" ∧
        some l.model = getStr obj "model") "the decision gave this provider no leg for this model"

def check_response (obj : Value F) (request decision : Option (Value F)) : Check Unit := do
  signedBy C obj RESPONSE "provider" trust.mesh
  response_shape obj
  answersRequest C obj request
  answersDecision C obj decision

/-! ## Advisories -/

def check_advisory (obj : Value F) (now : Option F) : Check Unit := do
  signedBy C obj ADVISORY "coordinator" trust.coordinators
  let epoch ← orRefuse (getInt obj "epoch") "bad epoch"
  ensure (0 ≤ epoch) "bad epoch"
  ensure ((didList C (get obj "failed") MAX_LISTED).isSome = true) "bad failed list"
  ensure ((didList C (get obj "quarantined") MAX_LISTED).isSome = true) "bad quarantined list"
  ensure (pairList C (get obj "bypass") MAX_LISTED = true) "bad bypass list"
  ensure (pairList C (get obj "recruit") MAX_LISTED = true) "bad recruit list"
  let iss ← getNum obj "issued_at" "bad issued_at"
  match now with
  | none => pure ()
  | some now => do
      let limit ← Num.add (.float now) (.int MAX_SKEW)
      ensure (limit.lt iss = false) "issued in the future"

/-- The nodes an advisory quarantines. -/
def quarantinedOf (adv : Value F) : List String := (strList (get adv "quarantined")).getD []

end

end Secdogie.Inference
