/-
# `Secdogie.Inference.Mutiny` — evidence, latches, and the only way back

An incident carries its own proof: whoever receives one re-derives the
violation from the evidence, and the targets it names are latched.  An
operator's reset clears the targets it lists of the incidents it lists.

The ledger is written to be independent of the order in which these arrive:
a target is latched exactly by the incidents absorbed, less the clearances
absorbed (`latched_iff`).

The checks of the objects an evidence is made of (responses, leases,
decisions, advisories) are a record, `Checks`; nothing here depends on what
they check.
-/
import Secdogie.Lib.StrMap
import Secdogie.Identity.Signing

namespace Secdogie.Inference

open Secdogie.Graph Secdogie.Identity

/-! ## Trust and checks -/

/-- Whom each decision listens to. -/
structure TrustRoots where
  mesh : String → Bool
  users : String → Bool
  deciders : String → Bool
  coordinators : String → Bool
  brokers : String → Bool
  operators : String → Bool

/-- Who may hand this node a frame at all. -/
def TrustRoots.peers (t : TrustRoots) (did : String) : Bool := t.mesh did || t.users did

/-- The checks of `protocol`, `lease` and `screen` under one trust; a check
returns why it fails. -/
structure Checks (F : Type) where
  check_response : Value F → Option (Value F) → Option String
  request_evidence_ok : Value F → Bool
  check_lease : Value F → Option String
  check_decision : Value F → Value F → Option String
  decision_violations : Value F → Value F → List String
  check_advisory : Value F → Option String
  routed_through : Value F → Value F → List String
  canary_leaked : String → String → Bool
  forbidden : String → List String

def INCIDENT : String := "secdogie/inference/incident/v1"
def RESET : String := "secdogie/inference/reset/v1"

inductive Kind where
  | provider_equivocation
  | provider_lease_violation
  | provider_secret_exfiltration
  | model_forbidden_capability
  | model_self_reported
  | decider_tampering
  | decider_self_reported
deriving DecidableEq

def Kind.text : Kind → String
  | .provider_equivocation => "provider.equivocation"
  | .provider_lease_violation => "provider.lease-violation"
  | .provider_secret_exfiltration => "provider.secret-exfiltration"
  | .model_forbidden_capability => "model.forbidden-capability"
  | .model_self_reported => "model.self-reported"
  | .decider_tampering => "decider.tampering"
  | .decider_self_reported => "decider.self-reported"

def KINDS : List Kind :=
  [.provider_equivocation, .provider_lease_violation, .provider_secret_exfiltration,
    .model_forbidden_capability, .model_self_reported, .decider_tampering, .decider_self_reported]

def Kind.ofText (s : String) : Option Kind := KINDS.find? (fun k => k.text = s)

def MAX_TARGETS : Nat := 16
def MAX_PROPOSAL : Nat := 4096
def MAX_REASON : Nat := 200
def STATUS_OK : String := "ok"

def node_target (did : String) : String := "node:" ++ did
def model_target (model : String) : String := "model:" ++ model
def decider_target (did : String) : String := "decider:" ++ did

section

variable {F : Type}

/-- `obj.get(k)`, or `obj[k]` where a missing key convicts nobody. -/
def get (v : Value F) (k : String) : Option (Value F) := v.asObj.bind (fun m => objGet m k)

def getStr (v : Value F) (k : String) : Option String := (get v k).bind Value.asStr

def getInt (v : Value F) (k : String) : Option Int :=
  match get v k with
  | some (.int n) => some n
  | _ => none

/-- A text of a class of characters, so many of them: `^[..]{lo,hi}$`, where
the dollar also matches before a newline at the end. -/
def matchesAll (p : Char → Bool) (lo hi : Nat) (s : String) : Bool :=
  let cs := if s.toList.getLast? = some '\n' then s.toList.dropLast else s.toList
  cs.all p && decide (lo ≤ cs.length ∧ cs.length ≤ hi)

def isHexDigit (c : Char) : Bool := ('0' ≤ c && c ≤ '9') || ('a' ≤ c && c ≤ 'f')

def is_hex32 (s : String) : Bool := matchesAll isHexDigit 32 32 s
def is_hex64 (s : String) : Bool := matchesAll isHexDigit 64 64 s

/-- `is_num`: an integer that fits a float, or a (finite) float. -/
def is_num : Option (Value F) → Bool
  | some (.int n) => decide (n.natAbs < 2 ^ 1024 - 2 ^ 970)
  | some (.float _) => true
  | _ => false

variable [FloatCodec F] (C : Crypto) (trust : TrustRoots) (K : Checks F)

/-- `none` when `obj` is a `type` object validly signed by a DID on `roots`
that equals its `field`; otherwise why not. -/
def signed_by (obj : Value F) (type field : String) (roots : String → Bool) : Option String :=
  if obj.asObj = none ∨ getStr obj "type" ≠ some type then some "wrong or missing type"
  else
    match verifyPayload C roots obj with
    | (true, signer) => if getStr obj field ≠ signer then some s!"{field} is not the signer" else none
    | (false, some _) => some "signer not trusted"
    | (false, none) => some "invalid or missing signature"

/-! ## Evidence

Each returns the targets it convicts. -/

def equivocation (ev : Value F) : Option (List String) := do
  let a ← get ev "a"
  let b ← get ev "b"
  if (K.check_response a none).isSome || (K.check_response b none).isSome then none
  else
    let pa ← getStr a "provider"
    let pb ← getStr b "provider"
    let ha ← getStr a "request_hash"
    let hb ← getStr b "request_hash"
    let ma ← getStr a "model"
    let mb ← getStr b "model"
    let sa ← getStr a "status"
    let sb ← getStr b "status"
    let oa ← getStr a "output"
    let ob ← getStr b "output"
    if ¬ (pa = pb ∧ ha = hb ∧ ma = mb) ∨ sa ≠ STATUS_OK ∨ sb ≠ STATUS_OK ∨ oa = ob then none
    else some [node_target pa]

def lease_violation (ev : Value F) : Option (List String) := do
  let r ← get ev "response"
  if (K.check_response r none).isSome then none
  else
    let lease ← get r "lease"
    let provider ← getStr r "provider"
    if K.check_lease lease = none ∧ getStr lease "subject" = some provider ∧
        getStr lease "model" = getStr r "model" then none
    else some [node_target provider]

def secret_exfiltration (ev : Value F) : Option (List String) := do
  let r ← get ev "response"
  if (K.check_response r none).isSome then none
  else
    let lease ← get r "lease"
    let provider ← getStr r "provider"
    if (K.check_lease lease).isSome ∨ getStr lease "subject" ≠ some provider then none
    else
      let output ← getStr r "output"
      let hash ← getStr lease "canary_hash"
      if K.canary_leaked output hash then some [node_target provider] else none

def forbidden_capability (ev : Value F) : Option (List String) := do
  let req ← get ev "request"
  let r ← get ev "response"
  if !K.request_evidence_ok req || (K.check_response r (some req)).isSome then none
  else
    let scopes ← (get req "scopes").bind Value.asArr
    let status ← getStr r "status"
    let output ← getStr r "output"
    let model ← getStr r "model"
    let provider ← getStr r "provider"
    if scopes.isEmpty ∨ status ≠ STATUS_OK ∨ K.forbidden output = [] then none
    else some [model_target model, node_target provider]

/-- The text of a self-reported violation, if it is one. -/
def violationText (ev : Value F) : Option String := do
  let violation ← getStr ev "violation"
  if violation = "" ∨ MAX_REASON < violation.length then none else some violation

def model_self_reported (ev : Value F) (reporter : String) : Option (List String) := do
  let lease ← get ev "lease"
  let _ ← violationText ev
  if getStr ev "reporter" ≠ some reporter ∨ (K.check_lease lease).isSome ∨
      getStr lease "subject" ≠ some reporter then none
  else
    let model ← getStr lease "model"
    some [model_target model]

def decider_tampering (ev : Value F) : Option (List String) := do
  let req ← get ev "request"
  let decision ← get ev "decision"
  if !K.request_evidence_ok req || (K.check_decision decision req).isSome then none
  else
    let violations := K.decision_violations decision req
    let decider ← getStr decision "decider"
    match get ev "advisory" with
    | none | some .null => if violations = [] then none else some [decider_target decider]
    | some adv =>
        if (K.check_advisory adv).isSome || getInt adv "epoch" ≠ getInt decision "epoch" then none
        else
          let quarantined ← get adv "quarantined"
          if K.routed_through decision quarantined = [] ∧ violations = [] then none
          else some [decider_target decider]

def decider_self_reported (ev : Value F) (reporter : String) : Option (List String) := do
  if getStr ev "reporter" ≠ some reporter ∨ trust.deciders reporter = false then none
  else
    let _ ← violationText ev
    let proposal ← get ev "proposal"
    if proposal.asObj = none ∨ MAX_PROPOSAL < (canonical proposal).size then none
    else some [decider_target reporter]

def verifier (kind : Kind) (ev : Value F) (reporter : String) : Option (List String) :=
  match kind with
  | .provider_equivocation => equivocation K ev
  | .provider_lease_violation => lease_violation K ev
  | .provider_secret_exfiltration => secret_exfiltration K ev
  | .model_forbidden_capability => forbidden_capability K ev
  | .model_self_reported => model_self_reported K ev reporter
  | .decider_tampering => decider_tampering K ev
  | .decider_self_reported => decider_self_reported trust ev reporter

structure Incident (F : Type) where
  incident_id : String
  kind : Kind
  targets : List String
  reporter : String
  signed : Value F

/-- What an incident is named after. -/
def idValue (kind : Kind) (ev : Value F) : Value F := .obj [("evidence", ev), ("kind", .str kind.text)]

def incident_id (kind : Kind) (ev : Value F) : String := digest C (idValue kind ev)

/-- The incident, when it is signed by a reporter on the mesh or user list
and its evidence convicts. -/
def verify_incident (obj : Value F) : Option (Incident F) :=
  if (signed_by C obj INCIDENT "reporter" trust.peers).isSome then none
  else
    match (getStr obj "kind").bind Kind.ofText, get obj "evidence", getStr obj "reporter" with
    | some kind, some ev, some reporter =>
        if ev.asObj = none ∨ is_num (get obj "issued_at") = false then none
        else if getStr obj "incident_id" ≠ some (incident_id C kind ev) then none
        else
          match verifier trust K kind ev reporter with
          | none | some [] => none
          | some targets => some ⟨incident_id C kind ev, kind, targets, reporter, obj⟩
    | _, _, _ => none

/-! ## Resets -/

/-- The strings of a list of strings. -/
def strList : Option (Value F) → Option (List String)
  | some (.arr a) => if (a.all (fun v => v.asStr.isSome)) then some (a.filterMap Value.asStr) else none
  | _ => none

/-- The targets and the incidents of a reset signed by an operator. -/
def verify_reset (obj : Value F) : Option (List String × List String) :=
  if (signed_by C obj RESET "operator" trust.operators).isSome then none
  else
    match strList (get obj "targets"), strList (get obj "incident_ids") with
    | some targets, some ids =>
        if ¬ (1 ≤ targets.length ∧ targets.length ≤ MAX_TARGETS) then none
        else if (targets.any (fun t => !t.contains ':')) ∨ ¬ targets.Pairwise (· < ·) then none
        else if ids = [] ∨ (ids.any (fun i => !is_hex64 i)) ∨ ¬ ids.Pairwise (· < ·) then none
        else if is_num (get obj "issued_at") = false then none
        else some (targets, ids)
    | _, _ => none

/-! ## The ledger -/

/-- Verified incidents and the latches they hold. -/
structure MutinyLedger (F : Type) where
  incidents : StrMap (Incident F) := ∅
  /-- the incidents that hold a target -/
  latches : StrMap (Finset String) := ∅
  /-- the targets an operator cleared, each of one incident -/
  cleared : Finset (String × String) := ∅
  resets : StrMap (Value F) := ∅

namespace MutinyLedger

variable (s : MutinyLedger F)

/-- What holds a target. -/
def held (t : String) : Finset String := (s.latches[t]?).getD ∅

def is_latched (t : String) : Bool := s.latches.contains t

/-- A target of a new incident. -/
def latchOne (id : String) (s : MutinyLedger F) (t : String) : MutinyLedger F :=
  if (t, id) ∈ s.cleared then s else { s with latches := s.latches.insert t (insert id (s.held t)) }

/-- Verifies and applies an incident. -/
def add (obj : Value F) : MutinyLedger F :=
  match verify_incident C trust K obj with
  | none => s
  | some inc =>
      if s.incidents.contains inc.incident_id then s
      else
        let s := { s with incidents := s.incidents.insert inc.incident_id inc }
        inc.targets.foldl (latchOne inc.incident_id) s

/-- A target of a new reset. -/
def unlatchOne (ids : List String) (s : MutinyLedger F) (t : String) : MutinyLedger F :=
  match s.latches[t]? with
  | none => s
  | some held =>
      if held \ ids.toFinset = ∅ then { s with latches := s.latches.erase t }
      else { s with latches := s.latches.insert t (held \ ids.toFinset) }

/-- Applies an operator reset. -/
def reset (obj : Value F) : MutinyLedger F :=
  match verify_reset C trust obj with
  | none => s
  | some (targets, ids) =>
      if s.resets.contains (digest C obj) then s
      else
        let s := { s with
          resets := s.resets.insert (digest C obj) obj
          cleared := s.cleared ∪ targets.toFinset ×ˢ ids.toFinset }
        targets.foldl (unlatchOne ids) s

end MutinyLedger

/-- What reaches a ledger. -/
inductive Absorbed (F : Type) where
  | incident (obj : Value F)
  | reset (obj : Value F)

namespace MutinyLedger

def absorb (s : MutinyLedger F) : Absorbed F → MutinyLedger F
  | .incident obj => s.add C trust K obj
  | .reset obj => s.reset C trust obj

def absorbAll (msgs : List (Absorbed F)) : MutinyLedger F := msgs.foldl (absorb C trust K) {}

end MutinyLedger

/-- Off every path: the node is latched, or its decision layer is. -/
def excludes_node (ledger : MutinyLedger F) (did : String) : Bool :=
  ledger.is_latched (node_target did) || ledger.is_latched (decider_target did)

/-- Any latch is lockdown. -/
def MutinyLedger.lockdown (ledger : MutinyLedger F) : Bool := !ledger.latches.isEmpty

end

/-! ## Incidents of one name -/

section

variable {F : Type} [FloatCodec F] {C : Crypto} {trust : TrustRoots} {K : Checks F}

omit [FloatCodec F] in
theorem model_self_reporter {ev : Value F} {r : String} {ts : List String}
    (h : model_self_reported K ev r = some ts) : getStr ev "reporter" = some r := by
  by_contra hne
  simp [model_self_reported, hne] at h

theorem decider_self_reporter {ev : Value F} {r : String} {ts : List String}
    (h : decider_self_reported trust ev r = some ts) : getStr ev "reporter" = some r := by
  by_contra hne
  simp [decider_self_reported, hne] at h

/-- What an evidence convicts does not depend on who reports it. -/
theorem verifier_unique {kind : Kind} {ev : Value F} {r r' : String} {ts ts' : List String}
    (h : verifier trust K kind ev r = some ts) (h' : verifier trust K kind ev r' = some ts') :
    ts = ts' := by
  cases kind with
  | model_self_reported =>
      obtain rfl := Option.some.inj ((model_self_reporter h).symm.trans (model_self_reporter h'))
      exact Option.some.inj (h.symm.trans h')
  | decider_self_reported =>
      obtain rfl := Option.some.inj ((decider_self_reporter h).symm.trans (decider_self_reporter h'))
      exact Option.some.inj (h.symm.trans h')
  | _ => exact Option.some.inj (h.symm.trans h')

/-- What an incident is named after and what it convicts. -/
theorem verify_incident_some {obj : Value F} {inc : Incident F}
    (h : verify_incident C trust K obj = some inc) :
    ∃ kind ev r, (getStr obj "kind").bind Kind.ofText = some kind ∧ get obj "evidence" = some ev ∧
      inc.incident_id = incident_id C kind ev ∧ verifier trust K kind ev r = some inc.targets := by
  unfold verify_incident at h
  split at h
  · cases h
  split at h
  · next kind ev r hkind hev _ =>
    split_ifs at h
    split at h
    · cases h
    · cases h
    · next ts _ hts =>
      obtain rfl := Option.some.inj h
      exact ⟨kind, ev, r, hkind, hev, rfl, hts⟩
  · cases h

theorem kind_text_inj {k k' : Kind} (h : k.text = k'.text) : k = k' := by
  cases k <;> cases k' <;> first | rfl | simp [Kind.text] at h

/-- The values that are digested on account of a list of messages. -/
def Digested (msgs : List (Absorbed F)) : Set (Value F) :=
  {v | (∃ obj kind ev, .incident obj ∈ msgs ∧ (getStr obj "kind").bind Kind.ofText = some kind ∧
      get obj "evidence" = some ev ∧ v = idValue kind ev) ∨ .reset v ∈ msgs}

omit [FloatCodec F] in
theorem digested_mono {msgs msgs' : List (Absorbed F)} (h : ∀ m ∈ msgs, m ∈ msgs') :
    Digested msgs ⊆ Digested msgs' := by
  rintro v (⟨obj, kind, ev, hobj, hrest⟩ | hv)
  · exact .inl ⟨obj, kind, ev, h _ hobj, hrest⟩
  · exact .inr (h _ hv)

/-- Verified incidents of one name convict the same targets. -/
theorem targets_eq {msgs : List (Absorbed F)} (hinj : Set.InjOn (digest C) (Digested msgs))
    {obj obj' : Value F} {inc inc' : Incident F} (hobj : .incident obj ∈ msgs)
    (hobj' : .incident obj' ∈ msgs) (h : verify_incident C trust K obj = some inc)
    (h' : verify_incident C trust K obj' = some inc') (hid : inc.incident_id = inc'.incident_id) :
    inc.targets = inc'.targets := by
  obtain ⟨kind, ev, r, hkind, hev, hname, hts⟩ := verify_incident_some h
  obtain ⟨kind', ev', r', hkind', hev', hname', hts'⟩ := verify_incident_some h'
  have hvalue : idValue kind ev = idValue kind' ev' :=
    hinj (.inl ⟨obj, kind, ev, hobj, hkind, hev, rfl⟩)
      (.inl ⟨obj', kind', ev', hobj', hkind', hev', rfl⟩) (hname.symm.trans (hid.trans hname'))
  simp only [idValue, Value.obj.injEq, List.cons.injEq, Prod.mk.injEq, Value.str.injEq, true_and,
    and_true] at hvalue
  obtain ⟨rfl, hkindtext⟩ := hvalue
  obtain rfl := kind_text_inj hkindtext
  exact verifier_unique hts hts'

/-! ## What a ledger holds -/

namespace MutinyLedger

/-- Some absorbed incident `i` names the target. -/
def Named (C : Crypto) (trust : TrustRoots) (K : Checks F) (msgs : List (Absorbed F)) (t i : String) :
    Prop :=
  ∃ obj inc, .incident obj ∈ msgs ∧ verify_incident C trust K obj = some inc ∧
    inc.incident_id = i ∧ t ∈ inc.targets

/-- Some absorbed reset clears the target of incident `i`. -/
def Cleared (C : Crypto) (trust : TrustRoots) (msgs : List (Absorbed F)) (t i : String) : Prop :=
  ∃ obj targets ids, .reset obj ∈ msgs ∧ verify_reset C trust obj = some (targets, ids) ∧
    t ∈ targets ∧ i ∈ ids

/-- The ledger is the one of these messages. -/
structure Holds (C : Crypto) (trust : TrustRoots) (K : Checks F) (msgs : List (Absorbed F))
    (s : MutinyLedger F) : Prop where
  incidents : ∀ i, i ∈ s.incidents ↔ ∃ obj inc, .incident obj ∈ msgs ∧
    verify_incident C trust K obj = some inc ∧ inc.incident_id = i
  resets : ∀ d, d ∈ s.resets ↔ ∃ obj p, .reset obj ∈ msgs ∧ verify_reset C trust obj = some p ∧
    digest C obj = d
  cleared : ∀ t i, (t, i) ∈ s.cleared ↔ Cleared C trust msgs t i
  latches : ∀ t i, i ∈ s.held t ↔ Named C trust K msgs t i ∧ ¬ Cleared C trust msgs t i
  no_empty : ∀ t : String, s.latches[t]? ≠ some ∅

omit [FloatCodec F] in
/-- Without empty entries a target is latched if something holds it. -/
theorem is_latched_iff {s : MutinyLedger F} (h : ∀ t : String, s.latches[t]? ≠ some ∅) (t : String) :
    s.is_latched t = true ↔ ∃ i, i ∈ s.held t := by
  rw [is_latched, StrMap.contains_eq, decide_eq_true_eq, StrMap.mem_iff_get, held]
  constructor
  · rintro ⟨ids, hids⟩
    have hne : ids ≠ ∅ := fun heq => h t (heq ▸ hids)
    obtain ⟨i, hi⟩ := Finset.nonempty_iff_ne_empty.mpr hne
    exact ⟨i, by rwa [hids]⟩
  · rintro ⟨i, hi⟩
    cases hids : s.latches[t]? with
    | none => simp [hids] at hi
    | some ids => exact ⟨ids, rfl⟩

omit [FloatCodec F] in
theorem latchOne_spec (id : String) (s : MutinyLedger F) (t : String) :
    (latchOne id s t).incidents = s.incidents ∧ (latchOne id s t).resets = s.resets ∧
      (latchOne id s t).cleared = s.cleared ∧
      (∀ t' i, i ∈ (latchOne id s t).held t' ↔
        i ∈ s.held t' ∨ (i = id ∧ t' = t ∧ (t, id) ∉ s.cleared)) ∧
      ((∀ t' : String, s.latches[t']? ≠ some ∅) → ∀ t' : String, (latchOne id s t).latches[t']? ≠ some ∅) := by
  unfold latchOne
  split_ifs with hcleared
  · exact ⟨rfl, rfl, rfl, fun t' i => by simp [hcleared], fun h => h⟩
  · refine ⟨rfl, rfl, rfl, fun t' i => ?_, fun h t' => ?_⟩
    · simp only [held, StrMap.get_insert]
      split_ifs with ht
      · subst ht
        simp [hcleared, or_comm]
      · simp [Ne.symm ht]
    · simp only [StrMap.get_insert]
      split_ifs with ht
      · simp
      · exact h t'

omit [FloatCodec F] in
theorem foldl_latchOne_spec (id : String) : ∀ (ts : List String) (s : MutinyLedger F),
    (ts.foldl (latchOne id) s).incidents = s.incidents ∧
      (ts.foldl (latchOne id) s).resets = s.resets ∧ (ts.foldl (latchOne id) s).cleared = s.cleared ∧
      (∀ t' i, i ∈ (ts.foldl (latchOne id) s).held t' ↔
        i ∈ s.held t' ∨ (i = id ∧ t' ∈ ts ∧ (t', id) ∉ s.cleared)) ∧
      ((∀ t' : String, s.latches[t']? ≠ some ∅) →
        ∀ t' : String, (ts.foldl (latchOne id) s).latches[t']? ≠ some ∅)
  | [], s => ⟨rfl, rfl, rfl, by simp, fun h => h⟩
  | t :: ts, s => by
      obtain ⟨h1, h2, h3, h4, h5⟩ := latchOne_spec id s t
      obtain ⟨g1, g2, g3, g4, g5⟩ := foldl_latchOne_spec id ts (latchOne id s t)
      rw [List.foldl_cons]
      refine ⟨g1.trans h1, g2.trans h2, g3.trans h3, fun t' i => ?_, fun h => g5 (h5 h)⟩
      rw [g4, h4, h3, List.mem_cons]
      constructor
      · rintro ((h | ⟨rfl, rfl, h⟩) | ⟨rfl, ht, h⟩)
        · exact .inl h
        · exact .inr ⟨rfl, .inl rfl, h⟩
        · exact .inr ⟨rfl, .inr ht, h⟩
      · rintro (h | ⟨rfl, rfl | ht, h⟩)
        · exact .inl (.inl h)
        · exact .inl (.inr ⟨rfl, rfl, h⟩)
        · exact .inr ⟨rfl, ht, h⟩

omit [FloatCodec F] in
theorem unlatchOne_spec (ids : List String) (s : MutinyLedger F) (t : String) :
    (unlatchOne ids s t).incidents = s.incidents ∧ (unlatchOne ids s t).resets = s.resets ∧
      (unlatchOne ids s t).cleared = s.cleared ∧
      (∀ t' i, i ∈ (unlatchOne ids s t).held t' ↔ i ∈ s.held t' ∧ ¬ (t' = t ∧ i ∈ ids)) ∧
      ((∀ t' : String, s.latches[t']? ≠ some ∅) →
        ∀ t' : String, (unlatchOne ids s t).latches[t']? ≠ some ∅) := by
  unfold unlatchOne
  cases hheld : s.latches[t]? with
  | none =>
      refine ⟨rfl, rfl, rfl, fun t' i => ?_, fun h => h⟩
      by_cases ht : t' = t
      · subst ht
        simp [held, hheld]
      · simp [ht]
  | some ids' =>
      dsimp only
      split_ifs with hempty
      · refine ⟨rfl, rfl, rfl, fun t' i => ?_, fun h t' => ?_⟩
        · simp only [held, StrMap.get_erase]
          split_ifs with ht
          · subst ht
            have hsub : i ∈ ids' → i ∈ ids := fun hi => by
              simpa using Finset.sdiff_eq_empty_iff_subset.mp hempty hi
            simp only [Option.getD_none, Finset.notMem_empty, true_and, false_iff, not_and, not_not,
              hheld, Option.getD_some]
            exact hsub
          · simp [Ne.symm ht]
        · simp only [StrMap.get_erase]
          split_ifs with ht
          · simp
          · exact h t'
      · refine ⟨rfl, rfl, rfl, fun t' i => ?_, fun h t' => ?_⟩
        · simp only [held, StrMap.get_insert]
          split_ifs with ht
          · subst ht
            simp [hheld]
          · simp [Ne.symm ht]
        · simp only [StrMap.get_insert]
          split_ifs with ht
          · simpa using hempty
          · exact h t'

omit [FloatCodec F] in
theorem foldl_unlatchOne_spec (ids : List String) : ∀ (ts : List String) (s : MutinyLedger F),
    (ts.foldl (unlatchOne ids) s).incidents = s.incidents ∧
      (ts.foldl (unlatchOne ids) s).resets = s.resets ∧
      (ts.foldl (unlatchOne ids) s).cleared = s.cleared ∧
      (∀ t' i, i ∈ (ts.foldl (unlatchOne ids) s).held t' ↔ i ∈ s.held t' ∧ ¬ (t' ∈ ts ∧ i ∈ ids)) ∧
      ((∀ t' : String, s.latches[t']? ≠ some ∅) →
        ∀ t' : String, (ts.foldl (unlatchOne ids) s).latches[t']? ≠ some ∅)
  | [], s => ⟨rfl, rfl, rfl, by simp, fun h => h⟩
  | t :: ts, s => by
      obtain ⟨h1, h2, h3, h4, h5⟩ := unlatchOne_spec ids s t
      obtain ⟨g1, g2, g3, g4, g5⟩ := foldl_unlatchOne_spec ids ts (unlatchOne ids s t)
      rw [List.foldl_cons]
      refine ⟨g1.trans h1, g2.trans h2, g3.trans h3, fun t' i => ?_, fun h => g5 (h5 h)⟩
      rw [g4, h4, List.mem_cons]
      tauto

/-! ## One more message -/

theorem named_snoc_incident {msgs : List (Absorbed F)} {obj : Value F} {t i : String} :
    Named C trust K (msgs ++ [.incident obj]) t i ↔ Named C trust K msgs t i ∨
      ∃ inc, verify_incident C trust K obj = some inc ∧ inc.incident_id = i ∧ t ∈ inc.targets := by
  constructor
  · rintro ⟨obj', inc, hmem, hinc⟩
    rcases List.mem_append.mp hmem with hold | hnew
    · exact .inl ⟨obj', inc, hold, hinc⟩
    · obtain rfl : obj' = obj := by simpa using hnew
      exact .inr ⟨inc, hinc⟩
  · rintro (⟨obj', inc, hold, hinc⟩ | ⟨inc, hinc⟩)
    · exact ⟨obj', inc, List.mem_append_left _ hold, hinc⟩
    · exact ⟨obj, inc, by simp, hinc⟩

theorem named_snoc_reset {msgs : List (Absorbed F)} {obj : Value F} {t i : String} :
    Named C trust K (msgs ++ [.reset obj]) t i ↔ Named C trust K msgs t i := by
  simp [Named]

theorem cleared_snoc_incident {msgs : List (Absorbed F)} {obj : Value F} {t i : String} :
    Cleared C trust (msgs ++ [.incident obj]) t i ↔ Cleared C trust msgs t i := by
  simp [Cleared]

theorem cleared_snoc_reset {msgs : List (Absorbed F)} {obj : Value F} {t i : String} :
    Cleared C trust (msgs ++ [.reset obj]) t i ↔ Cleared C trust msgs t i ∨
      ∃ targets ids, verify_reset C trust obj = some (targets, ids) ∧ t ∈ targets ∧ i ∈ ids := by
  constructor
  · rintro ⟨obj', targets, ids, hmem, hrest⟩
    rcases List.mem_append.mp hmem with hold | hnew
    · exact .inl ⟨obj', targets, ids, hold, hrest⟩
    · obtain rfl : obj' = obj := by simpa using hnew
      exact .inr ⟨targets, ids, hrest⟩
  · rintro (⟨obj', targets, ids, hold, hrest⟩ | ⟨targets, ids, hrest⟩)
    · exact ⟨obj', targets, ids, List.mem_append_left _ hold, hrest⟩
    · exact ⟨obj, targets, ids, by simp, hrest⟩

theorem incidents_snoc {msgs : List (Absorbed F)} {m : Absorbed F} {i : String} :
    (∃ obj inc, .incident obj ∈ msgs ++ [m] ∧ verify_incident C trust K obj = some inc ∧
        inc.incident_id = i) ↔
      (∃ obj inc, .incident obj ∈ msgs ∧ verify_incident C trust K obj = some inc ∧
        inc.incident_id = i) ∨
      ∃ obj inc, m = .incident obj ∧ verify_incident C trust K obj = some inc ∧
        inc.incident_id = i := by
  constructor
  · rintro ⟨obj, inc, hmem, hinc⟩
    rcases List.mem_append.mp hmem with hold | hnew
    · exact .inl ⟨obj, inc, hold, hinc⟩
    · exact .inr ⟨obj, inc, (List.mem_singleton.mp hnew).symm, hinc⟩
  · rintro (⟨obj, inc, hold, hinc⟩ | ⟨obj, inc, rfl, hinc⟩)
    · exact ⟨obj, inc, List.mem_append_left _ hold, hinc⟩
    · exact ⟨obj, inc, by simp, hinc⟩

theorem resets_snoc {msgs : List (Absorbed F)} {m : Absorbed F} {d : String} :
    (∃ obj p, .reset obj ∈ msgs ++ [m] ∧ verify_reset C trust obj = some p ∧ digest C obj = d) ↔
      (∃ obj p, .reset obj ∈ msgs ∧ verify_reset C trust obj = some p ∧ digest C obj = d) ∨
      ∃ obj p, m = .reset obj ∧ verify_reset C trust obj = some p ∧ digest C obj = d := by
  constructor
  · rintro ⟨obj, p, hmem, hp⟩
    rcases List.mem_append.mp hmem with hold | hnew
    · exact .inl ⟨obj, p, hold, hp⟩
    · exact .inr ⟨obj, p, (List.mem_singleton.mp hnew).symm, hp⟩
  · rintro (⟨obj, p, hold, hp⟩ | ⟨obj, p, rfl, hp⟩)
    · exact ⟨obj, p, List.mem_append_left _ hold, hp⟩
    · exact ⟨obj, p, by simp, hp⟩

variable {msgs : List (Absorbed F)} {s : MutinyLedger F} {obj : Value F}

/-- An incident adds what it names, unless its name is known; then it adds
nothing new. -/
theorem holds_add (hs : Holds C trust K msgs s)
    (hinj : Set.InjOn (digest C) (Digested (msgs ++ [.incident obj]))) :
    Holds C trust K (msgs ++ [.incident obj]) (s.add C trust K obj) := by
  unfold add
  cases hinc : verify_incident C trust K obj with
  | none =>
      exact
        { incidents := fun i => by rw [hs.incidents, incidents_snoc]; simp [hinc]
          resets := fun d => by rw [hs.resets, resets_snoc]; simp
          cleared := fun t i => by rw [hs.cleared, cleared_snoc_incident]
          latches := fun t i => by
            rw [hs.latches, named_snoc_incident, cleared_snoc_incident]; simp [hinc]
          no_empty := hs.no_empty }
  | some inc =>
      dsimp only
      split_ifs with hknown
      · rw [StrMap.contains_eq, decide_eq_true_eq, hs.incidents] at hknown
        obtain ⟨obj', inc', hmem', hinc', hid⟩ := hknown
        have htargets : inc'.targets = inc.targets :=
          targets_eq hinj (List.mem_append_left _ hmem') (by simp) hinc' hinc hid
        have hnamed : ∀ t, t ∈ inc.targets → Named C trust K msgs t inc.incident_id :=
          fun t ht => ⟨obj', inc', hmem', hinc', hid, htargets ▸ ht⟩
        refine ⟨fun i => ?_, fun d => ?_, fun t i => ?_, fun t i => ?_, hs.no_empty⟩
        · rw [hs.incidents, incidents_snoc]
          refine ⟨.inl, ?_⟩
          rintro (h | ⟨obj₂, inc₂, hobj₂, hinc₂, rfl⟩)
          · exact h
          · obtain rfl : obj = obj₂ := by simpa using hobj₂
            obtain rfl := Option.some.inj (hinc.symm.trans hinc₂)
            exact ⟨obj', inc', hmem', hinc', hid⟩
        · rw [hs.resets, resets_snoc]; simp
        · rw [hs.cleared, cleared_snoc_incident]
        · rw [hs.latches, named_snoc_incident, cleared_snoc_incident]
          refine and_congr_left fun _ => ⟨.inl, ?_⟩
          rintro (h | ⟨inc₂, hinc₂, rfl, ht⟩)
          · exact h
          · obtain rfl := Option.some.inj (hinc.symm.trans hinc₂)
            exact hnamed t ht
      · obtain ⟨h1, h2, h3, h4, h5⟩ := foldl_latchOne_spec inc.incident_id inc.targets
          { s with incidents := s.incidents.insert inc.incident_id inc }
        refine ⟨fun i => ?_, fun d => ?_, fun t i => ?_, fun t i => ?_, h5 hs.no_empty⟩
        · rw [h1, incidents_snoc, StrMap.mem_insert, hs.incidents, or_comm]
          refine or_congr_right ⟨fun h => ⟨obj, inc, rfl, hinc, h⟩, ?_⟩
          rintro ⟨obj₂, inc₂, hobj₂, hinc₂, rfl⟩
          obtain rfl : obj = obj₂ := by simpa using hobj₂
          rw [Option.some.inj (hinc.symm.trans hinc₂)]
        · rw [h2, resets_snoc, hs.resets]; simp
        · rw [h3, cleared_snoc_incident, hs.cleared]
        · rw [h4, named_snoc_incident, cleared_snoc_incident, hs.cleared]
          have hheld : i ∈ held { s with incidents := s.incidents.insert inc.incident_id inc } t ↔
              i ∈ s.held t := Iff.rfl
          rw [hheld, hs.latches, or_and_right]
          refine or_congr_right ⟨?_, ?_⟩
          · rintro ⟨rfl, ht, hcleared⟩
            exact ⟨⟨inc, hinc, rfl, ht⟩, hcleared⟩
          · rintro ⟨⟨inc₂, hinc₂, rfl, ht⟩, hcleared⟩
            obtain rfl := Option.some.inj (hinc.symm.trans hinc₂)
            exact ⟨rfl, ht, hcleared⟩

/-- A reset clears what it lists, whether or not it is there yet. -/
theorem holds_reset (hs : Holds C trust K msgs s)
    (hinj : Set.InjOn (digest C) (Digested (msgs ++ [.reset obj]))) :
    Holds C trust K (msgs ++ [.reset obj]) (s.reset C trust obj) := by
  unfold reset
  cases hp : verify_reset C trust obj with
  | none =>
      exact
        { incidents := fun i => by rw [hs.incidents, incidents_snoc]; simp
          resets := fun d => by rw [hs.resets, resets_snoc]; simp [hp]
          cleared := fun t i => by rw [hs.cleared, cleared_snoc_reset]; simp [hp]
          latches := fun t i => by
            rw [hs.latches, named_snoc_reset, cleared_snoc_reset]; simp [hp]
          no_empty := hs.no_empty }
  | some p =>
      obtain ⟨targets, ids⟩ := p
      have hnew : ∀ t i, Cleared C trust (msgs ++ [.reset obj]) t i ↔
          Cleared C trust msgs t i ∨ (t ∈ targets ∧ i ∈ ids) := fun t i => by
        rw [cleared_snoc_reset]
        simp [hp]
      dsimp only
      split_ifs with hknown
      · -- equal digests: it is the reset absorbed before
        rw [StrMap.contains_eq, decide_eq_true_eq, hs.resets] at hknown
        obtain ⟨obj', p, hmem', hp', hd⟩ := hknown
        obtain rfl : obj' = obj :=
          hinj (.inr (List.mem_append_left _ hmem')) (.inr (by simp)) hd
        have hold : ∀ t i, t ∈ targets ∧ i ∈ ids → Cleared C trust msgs t i :=
          fun t i h => ⟨obj', targets, ids, hmem', hp, h⟩
        have hsame : ∀ t i, Cleared C trust (msgs ++ [.reset obj']) t i ↔ Cleared C trust msgs t i :=
          fun t i => (hnew t i).trans ⟨fun h => h.elim id (hold t i), .inl⟩
        refine ⟨fun i => ?_, fun d => ?_, fun t i => ?_, fun t i => ?_, hs.no_empty⟩
        · rw [hs.incidents, incidents_snoc]; simp
        · rw [hs.resets, resets_snoc]
          refine ⟨.inl, ?_⟩
          rintro (h | ⟨obj₂, p₂, hobj₂, hp₂, rfl⟩)
          · exact h
          · obtain rfl : obj' = obj₂ := by simpa using hobj₂
            exact ⟨obj', p₂, hmem', hp₂, rfl⟩
        · rw [hs.cleared, hsame]
        · rw [hs.latches, named_snoc_reset, hsame]
      · obtain ⟨h1, h2, h3, h4, h5⟩ := foldl_unlatchOne_spec ids targets
          { s with
            resets := s.resets.insert (digest C obj) obj
            cleared := s.cleared ∪ targets.toFinset ×ˢ ids.toFinset }
        refine ⟨fun i => ?_, fun d => ?_, fun t i => ?_, fun t i => ?_, h5 hs.no_empty⟩
        · rw [h1, incidents_snoc, hs.incidents]; simp
        · rw [h2, resets_snoc, StrMap.mem_insert, hs.resets, or_comm]
          simp [hp]
        · rw [h3, hnew, Finset.mem_union, hs.cleared]
          simp
        · rw [h4, named_snoc_reset, hnew]
          refine (and_congr_left' (hs.latches t i)).trans ?_
          tauto

theorem holds_absorb {m : Absorbed F} (hs : Holds C trust K msgs s)
    (hinj : Set.InjOn (digest C) (Digested (msgs ++ [m]))) :
    Holds C trust K (msgs ++ [m]) (s.absorb C trust K m) := by
  cases m with
  | incident obj => exact holds_add hs hinj
  | reset obj => exact holds_reset hs hinj

/-! ## Every order of messages -/

theorem holds_absorbAll : ∀ {msgs : List (Absorbed F)}, Set.InjOn (digest C) (Digested msgs) →
    Holds C trust K msgs (absorbAll C trust K msgs) := by
  intro msgs
  induction msgs using List.reverseRecOn with
  | nil =>
      intro _
      exact ⟨by simp [absorbAll], by simp [absorbAll], by simp [absorbAll, Cleared],
        by simp [absorbAll, Named, held], by simp [absorbAll]⟩
  | append_singleton msgs m ih =>
      intro hinj
      have hs := ih (hinj.mono (digested_mono fun _ h => List.mem_append_left _ h))
      rw [absorbAll, List.foldl_append, List.foldl_cons, List.foldl_nil]
      exact holds_absorb hs hinj

omit [FloatCodec F] in
theorem is_latched_iff_mem {t : String} : s.is_latched t = true ↔ t ∈ s.latches := by
  rw [is_latched, StrMap.contains_eq, decide_eq_true_eq]

omit [FloatCodec F] in
theorem latched_foldl_latchOne {id t : String} : ∀ {ts : List String} {s : MutinyLedger F},
    t ∈ s.latches → t ∈ (ts.foldl (latchOne id) s).latches := by
  intro ts
  induction ts with
  | nil => exact fun h => h
  | cons t' ts ih =>
      intro s h
      refine ih ?_
      rw [latchOne]
      split_ifs
      · exact h
      · exact StrMap.mem_insert.mpr (.inr h)

/-- An incident unlatches nothing. -/
theorem latched_add {t : String} (h : t ∈ s.latches) : t ∈ (s.add C trust K obj).latches := by
  rw [add]
  split
  · exact h
  · split_ifs
    · exact h
    · exact latched_foldl_latchOne h

theorem latched_foldl_add {t : String} : ∀ {objs : List (Value F)} {s : MutinyLedger F},
    t ∈ s.latches → t ∈ ((objs.map .incident).foldl (absorb C trust K) s).latches := by
  intro objs
  induction objs with
  | nil => exact fun h => h
  | cons obj objs ih => exact fun h => ih (latched_add h)

theorem named_congr {msgs' : List (Absorbed F)} (h : ∀ m, m ∈ msgs' ↔ m ∈ msgs) (t i : String) :
    Named C trust K msgs' t i ↔ Named C trust K msgs t i := by
  simp only [Named, h]

theorem cleared_congr {msgs' : List (Absorbed F)} (h : ∀ m, m ∈ msgs' ↔ m ∈ msgs) (t i : String) :
    Cleared C trust msgs' t i ↔ Cleared C trust msgs t i := by
  simp only [Cleared, h]

omit [FloatCodec F] in
/-- Two ledgers that hold the same, without empty entries, have the same
latches. -/
theorem latches_ext {s' : MutinyLedger F} (h : ∀ t : String, s.latches[t]? ≠ some ∅)
    (h' : ∀ t : String, s'.latches[t]? ≠ some ∅) (heq : ∀ t i, i ∈ s'.held t ↔ i ∈ s.held t) :
    s'.latches = s.latches := by
  refine StrMap.ext fun t => ?_
  have hheld : s'.held t = s.held t := Finset.ext (heq t)
  rw [held, held] at hheld
  cases hs : s.latches[t]? with
  | none =>
      cases hs' : s'.latches[t]? with
      | none => rfl
      | some ids =>
          rw [hs, hs'] at hheld
          exact absurd (hs'.trans (congrArg some hheld)) (h' t)
  | some ids =>
      cases hs' : s'.latches[t]? with
      | none =>
          rw [hs, hs'] at hheld
          exact absurd (hs.trans (congrArg some hheld.symm)) (h t)
      | some ids' =>
          rw [hs, hs'] at hheld
          exact congrArg some hheld

/-- A target is latched iff an absorbed incident names it that no absorbed
reset clears of it; the latches are a function of what was absorbed, in
whatever order and however often; and incidents alone unlatch nothing. -/
theorem latched_iff (C : Crypto) (trust : TrustRoots) (K : Checks F) (msgs : List (Absorbed F))
    (hinj : Set.InjOn (digest C) (Digested msgs)) :
    (∀ t, (absorbAll C trust K msgs).is_latched t = true ↔
      ∃ i, Named C trust K msgs t i ∧ ¬ Cleared C trust msgs t i) ∧
    (∀ msgs', (∀ m, m ∈ msgs' ↔ m ∈ msgs) →
      (absorbAll C trust K msgs').latches = (absorbAll C trust K msgs).latches) ∧
    (∀ (s : MutinyLedger F) (objs : List (Value F)) (t : String), s.is_latched t = true →
      ((objs.map .incident).foldl (absorb C trust K) s).is_latched t = true) := by
  have hs : Holds C trust K msgs (absorbAll C trust K msgs) := holds_absorbAll hinj
  refine ⟨fun t => ?_, fun msgs' hsame => ?_, fun s objs t ht => ?_⟩
  · rw [is_latched_iff hs.no_empty]
    simp only [hs.latches]
  · have hs' : Holds C trust K msgs' (absorbAll C trust K msgs') :=
      holds_absorbAll (hinj.mono (digested_mono fun m => (hsame m).mp))
    refine latches_ext hs.no_empty hs'.no_empty fun t i => ?_
    rw [hs.latches, hs'.latches, named_congr hsame, cleared_congr hsame]
  · rw [is_latched_iff_mem] at ht ⊢
    exact latched_foldl_add ht

end MutinyLedger

end

/-! ## A node that gave two answers -/

namespace TwoAnswers

def trust : TrustRoots where
  mesh did := did = "did:reporter"
  users _ := false
  deciders _ := false
  coordinators _ := false
  brokers _ := false
  operators _ := false

/-- Checks that everything passes. -/
def checks : Checks Empty where
  check_response _ _ := none
  request_evidence_ok _ := true
  check_lease _ := none
  check_decision _ _ := none
  decision_violations _ _ := []
  check_advisory _ := none
  routed_through _ _ := []
  canary_leaked _ _ := false
  forbidden _ := []

def answer (output : String) : Value Empty :=
  .obj [("model", .str "m"), ("output", .str output), ("provider", .str "did:node"),
    ("request_hash", .str "r"), ("status", .str STATUS_OK)]

def evidence : Value Empty := .obj [("a", answer "yes"), ("b", answer "no")]

theorem get_a : get evidence "a" = some (answer "yes") := by simp [get, evidence, Value.asObj, objGet]

theorem get_b : get evidence "b" = some (answer "no") := by simp [get, evidence, Value.asObj, objGet]

variable (output : String)

theorem answer_provider : getStr (answer output) "provider" = some "did:node" := by
  simp [getStr, get, answer, Value.asObj, objGet, Value.asStr]

theorem answer_hash : getStr (answer output) "request_hash" = some "r" := by
  simp [getStr, get, answer, Value.asObj, objGet, Value.asStr]

theorem answer_model : getStr (answer output) "model" = some "m" := by
  simp [getStr, get, answer, Value.asObj, objGet, Value.asStr]

theorem answer_status : getStr (answer output) "status" = some STATUS_OK := by
  simp [getStr, get, answer, Value.asObj, objGet, Value.asStr]

theorem answer_output : getStr (answer output) "output" = some output := by
  simp [getStr, get, answer, Value.asObj, objGet, Value.asStr]

def report : Value Empty :=
  .obj [("evidence", evidence),
    ("incident_id", .str (incident_id .lenient .provider_equivocation evidence)),
    ("issued_at", .int 0), ("kind", .str "provider.equivocation"),
    ("reporter", .str "did:reporter"), ("sig", .str ""), ("signer", .str "did:reporter"),
    ("type", .str INCIDENT)]

theorem verify_report : verify_incident .lenient trust checks report =
    some ⟨incident_id .lenient .provider_equivocation evidence, .provider_equivocation,
      ["node:did:node"], "did:reporter", report⟩ := by
  have hsigned : signed_by .lenient report INCIDENT "reporter" trust.peers = none := by
    simp [signed_by, report, getStr, get, Value.asObj, objGet, Value.asStr, verifyPayload,
      Crypto.lenient, TrustRoots.peers, trust]
  have hkind : (getStr report "kind").bind Kind.ofText = some .provider_equivocation := by
    simp [getStr, get, report, Value.asObj, objGet, Value.asStr, Kind.ofText, KINDS, Kind.text]
  have hev : get report "evidence" = some evidence := by
    simp [get, report, Value.asObj, objGet]
  have hreporter : getStr report "reporter" = some "did:reporter" := by
    simp [getStr, get, report, Value.asObj, objGet, Value.asStr]
  have hid : getStr report "incident_id" =
      some (incident_id .lenient .provider_equivocation evidence) := by
    simp [getStr, get, report, Value.asObj, objGet, Value.asStr]
  have hat : is_num (get report "issued_at") = true := by
    have hget : get report "issued_at" = some (.int 0) := by
      simp [get, report, Value.asObj, objGet]
    simp only [hget, is_num, Int.natAbs_zero, decide_eq_true_eq]
    exact Nat.sub_pos_of_lt (Nat.pow_lt_pow_right Nat.one_lt_two (by decide))
  have hobj : evidence.asObj ≠ none := by simp [evidence, Value.asObj]
  have hverify : verifier trust checks .provider_equivocation evidence "did:reporter" =
      some ["node:did:node"] := by
    rw [verifier, equivocation, get_a, get_b]
    dsimp only [Option.bind_eq_bind, Option.bind_some]
    rw [answer_provider, answer_provider, answer_hash, answer_hash, answer_model, answer_model]
    rw [answer_status, answer_status, answer_output, answer_output]
    dsimp only [Option.bind_some, checks]
    have hne : ("yes" : String) ≠ "no" := by decide
    simp only [hne, Option.isSome_none, Bool.or_self, Bool.false_eq_true, if_false, and_self,
      not_true, ne_eq, or_self]
    rfl
  simp [verify_incident, hsigned, hkind, hev, hreporter, hid, hat, hobj, hverify]

end TwoAnswers

/-- The report, absorbed twice, latches the node, and so does any other
sequence of the same report. -/
theorem MutinyLedger.latched_iff_twoAnswers :
    let msgs : List (Absorbed Empty) := [.incident TwoAnswers.report, .incident TwoAnswers.report]
    (absorbAll .lenient TwoAnswers.trust TwoAnswers.checks msgs).is_latched "node:did:node" = true ∧
      ∀ msgs', (∀ m, m ∈ msgs' ↔ m ∈ msgs) →
        (absorbAll .lenient TwoAnswers.trust TwoAnswers.checks msgs').latches =
          (absorbAll .lenient TwoAnswers.trust TwoAnswers.checks msgs).latches := by
  intro msgs
  have hdigested : Digested msgs ⊆
      {idValue .provider_equivocation TwoAnswers.evidence} := by
    rintro v (⟨obj, kind, ev, hobj, hkind, hev, rfl⟩ | hv)
    · obtain rfl : obj = TwoAnswers.report := by simpa [msgs] using hobj
      obtain rfl : Kind.provider_equivocation = kind := by
        simpa [getStr, get, TwoAnswers.report, Value.asObj, objGet, Value.asStr, Kind.ofText, KINDS,
          Kind.text] using hkind
      obtain rfl : TwoAnswers.evidence = ev := by
        simpa [get, TwoAnswers.report, Value.asObj, objGet] using hev
      rfl
    · simp [msgs] at hv
  obtain ⟨hlatched, hsame, -⟩ := latched_iff .lenient TwoAnswers.trust TwoAnswers.checks msgs
    ((Set.subsingleton_singleton.anti hdigested).injOn _)
  refine ⟨(hlatched _).mpr ⟨_, ⟨TwoAnswers.report, _, by simp [msgs], TwoAnswers.verify_report,
    rfl, by simp⟩, ?_⟩, hsame⟩
  rintro ⟨obj, targets, ids, hmem, -⟩
  simp [msgs] at hmem

end Secdogie.Inference
