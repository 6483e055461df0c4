/-
# `Secdogie.Inference.Lockdown` — whose routes are taken in lockdown

In lockdown the decision layer is suspended: any node of the mesh may sign a
decision, and what binds it are the nodes that the user pinned.  Both ends look
for violations, the model node before it serves and the user before it reads
the answer; but pins are compared with the legs only if there are pins, so a
request without any is served along whatever a node decides (`unpinned_served`).
-/
import Secdogie.Inference.Safety

namespace Secdogie.Inference

open Secdogie.Graph Secdogie.Identity

/-! ## A model node -/

/-- A node of the mesh, with what it goes by when a request comes in. -/
structure MeshNode (F : Type) where
  C : Crypto
  trust : TrustRoots
  did : String
  /-- it serves models -/
  serves : Bool
  ledger : MutinyLedger F
  advisory_at : Int → Option (Value F)
  /-- it holds a current lease for the model -/
  lent : String → F → Bool
  /-- the next node takes its frames -/
  reaches : String → Bool

/-- What becomes of a request. -/
inductive Served where
  | ignored
  | raised
  | tampering (violations : List String)
  | nacked (why : String)
  | carried (next : String)
  | answered (model : String)
deriving DecidableEq

section

variable {F : Type} (n : MeshNode F)

/-- Why the node will not carry a leg of the decision. -/
def may_carry (decision : Value F) : Option String :=
  if excludes_node n.ledger ((getStr decision "decider").getD "") then some "the decider is latched"
  else if n.ledger.lockdown ∧ getStr decision "mode" ≠ some MODE_LOCKDOWN then
    some "lockdown: the decision layer is suspended"
  else none

/-- The violations of the decision, and of the advisory it was made under. -/
def violationsAt (request decision : Value F) : List String :=
  decision_violations decision request ++
    (match n.advisory_at ((getInt decision "epoch").getD 0) with
    | none => []
    | some adv => if routed_through decision (quarantinedOf adv) = [] then [] else ["quarantined-hop"])

def serve (request decision : Value F) (leg : Leg) (now : F) : Served :=
  if n.serves = false ∨ leg.provider ≠ n.did then .ignored
  else if violationsAt n request decision ≠ [] then .tampering (violationsAt n request decision)
  else
    match may_carry n decision with
    | some why => .nacked why
    | none =>
        if excludes_node n.ledger n.did ∨ n.ledger.is_latched (model_target leg.model) then
          .nacked "the node or model is latched"
        else if n.lent leg.model now = false then .nacked "no current lease"
        else .answered leg.model

/-- `_leg`, toward the provider: the leg, and the node's place on its path. -/
def legFor (src : String) (decision frame : Value F) : Option (Leg × Nat) := do
  let i ← getInt frame "leg"
  let hop ← getInt frame "hop"
  let leg ← (legsOf decision)[i.toNat]?
  if 0 ≤ i ∧ 1 ≤ hop ∧ leg.path[hop.toNat]? = some n.did ∧ leg.path[hop.toNat - 1]? = some src then
    some (leg, hop.toNat)
  else none

variable [PyNumber F]

/-- `_on_req` -/
def on_req (src : String) (frame : Value F) (now : F) : Served :=
  let request := (get frame "request").getD .null
  let decision := (get frame "decision").getD .null
  match check_request n.C n.trust request now, check_decision n.C n.trust decision (some request) with
  | .error (.refused _), _ => .ignored
  | .error (.raised _), _ => .raised
  | .ok (), .error (.refused _) => .ignored
  | .ok (), .error (.raised _) => .raised
  | .ok (), .ok () =>
      match legFor n src decision frame with
      | none => .ignored
      | some (leg, hop) =>
          match leg.path[hop + 1]? with
          | none => serve n request decision leg now
          | some next =>
              match may_carry n decision with
              | some why => .nacked why
              | none =>
                  if excludes_node n.ledger next then .nacked "the next hop is latched"
                  else if n.reaches next = false then .nacked "the next hop is unreachable"
                  else .carried next

/-- A model node serves the request along this decision. -/
def NodeAccepts (request decision : Value F) : Prop :=
  ∃ src frame now model, get frame "request" = some request ∧ get frame "decision" = some decision ∧
    on_req n src frame now = .answered model

/-- A user who made the request finds an answer good that came along this decision. -/
def UserAccepts (U : SafetyConfig F) (request decision : Value F) : Prop :=
  request_shape U.C request = .ok () ∧ ∃ (s : SafetyLayer F) (response : Value F) (now : F)
    (f : Finding F), (s.inspect U request decision response now none).1 = .ok f ∧ f.ok = true

/-- What both have found: the request is one, the decision is for it, and does nothing against it. -/
structure Accepted (C : Crypto) (trust : TrustRoots) (request decision : Value F) : Prop where
  shape : request_shape C request = .ok ()
  check : check_decision C trust decision (some request) = .ok ()
  clean : decision_violations decision request = []

/-- The nodes a decision goes to, and for which models. -/
def legPairs (decision : Value F) : List (String × String) :=
  (legsOf decision).map (fun l => (l.provider, l.model))

end

/-! ## What acceptance says -/

section

variable {F : Type}

/-- What is found on the way is no good answer. -/
def Rejecting {α : Type} (x : Except (Stop F) α) : Prop := ∀ f, x = .error (.found f) → f.ok = false

theorem Rejecting.bind {α β : Type} {x : Except (Stop F) α} {k : α → Except (Stop F) β}
    (hx : Rejecting x) (hk : ∀ a, Rejecting (k a)) : Rejecting (x >>= k) := by
  intro f h
  cases x with
  | error e => exact hx f (congrArg Except.error (Except.error.inj h))
  | ok a => exact hk a f h

theorem rejecting_hold {p : Prop} [Decidable p] {f : Finding F} (hf : f.ok = false) :
    Rejecting (hold p f) := by
  intro g h
  rw [hold] at h
  split at h
  · exact nomatch h
  · obtain rfl := Stop.found.inj (Except.error.inj h)
    exact hf

theorem rejecting_orFinding {α : Type} {c : Check α} {f : String → Finding F}
    (hf : ∀ why, (f why).ok = false) : Rejecting (orFinding c f) := by
  intro g h
  unfold orFinding at h
  split at h
  · exact nomatch h
  · obtain rfl := Stop.found.inj (Except.error.inj h)
    exact hf _
  · exact nomatch h

variable [PyNumber F] {U : SafetyConfig F}

theorem rejecting_tampering (request decision : Value F) (advisory : Option (Value F)) :
    Rejecting (tampering U request decision advisory) := by
  intro f h
  unfold tampering at h
  dsimp only at h
  split at h
  · exact nomatch h
  · split at h
    · split at h
      · exact nomatch h
      · exact nomatch h
      · split at h
        · exact nomatch h
        · exact nomatch h
    · exact nomatch h

theorem rejecting_inspectRoute (s : SafetyLayer F) (request decision response : Value F)
    (advisory : Option (Value F)) : Rejecting (inspectRoute U s request decision response advisory) := by
  refine (rejecting_orFinding fun _ => rfl).bind fun _ => (rejecting_tampering _ _ _).bind fun _ => ?_
  refine (rejecting_hold rfl).bind fun _ => (rejecting_hold rfl).bind fun _ => ?_
  exact (rejecting_orFinding fun _ => rfl).bind fun _ => rejecting_hold rfl

theorem rejecting_inspectLease (s : SafetyLayer F) (request response : Value F) (now : F) :
    Rejecting (inspectLease U s request response now) := by
  refine (rejecting_orFinding fun _ => rfl).bind fun _ => (rejecting_hold rfl).bind fun _ => ?_
  refine (rejecting_orFinding fun _ => rfl).bind fun _ => ?_
  refine (rejecting_orFinding fun _ => rfl).bind fun _ => ?_
  refine (rejecting_orFinding fun _ => rfl).bind fun _ => ?_
  exact (rejecting_hold rfl).bind fun _ => rejecting_hold rfl

/-- A good answer came along a decision that is in order. -/
theorem inspectRoute_of_ok {s : SafetyLayer F} {request decision response : Value F} {now : F}
    {advisory : Option (Value F)} {f : Finding F}
    (h : (s.inspect U request decision response now advisory).1 = .ok f) (hok : f.ok = true) :
    inspectRoute U s request decision response advisory = .ok () := by
  unfold SafetyLayer.inspect at h
  cases hroute : inspectRoute U s request decision response advisory with
  | ok u => rfl
  | error e =>
      rw [hroute] at h
      cases e with
      | raised e => cases h
      | found g =>
          obtain rfl := Except.ok.inj h
          have hbad := rejecting_inspectRoute s request decision response advisory _ hroute
          cases hok.symm.trans hbad

theorem accepted_of_user {request decision : Value F} (h : UserAccepts U request decision) :
    Accepted U.C U.trust request decision := by
  obtain ⟨hrequest, s, response, now, f, hinspect, hok⟩ := h
  have hroute := inspectRoute_of_ok hinspect hok
  rw [inspectRoute] at hroute
  obtain ⟨u, hdecision, hroute⟩ := bind_ok.mp hroute
  obtain ⟨p, htampering, hroute⟩ := bind_ok.mp hroute
  obtain ⟨u', hhold, -⟩ := bind_ok.mp hroute
  refine ⟨hrequest, ?_, ?_⟩
  · unfold orFinding at hdecision
    split at hdecision
    · next heq => exact heq
    · exact nomatch hdecision
    · exact nomatch hdecision
  · obtain rfl := Except.ok.inj htampering
    rw [hold] at hhold
    split at hhold
    · next hclean => exact hclean
    · exact nomatch hhold

theorem accepted_of_node {n : MeshNode F} {request decision : Value F}
    (h : NodeAccepts n request decision) : Accepted n.C n.trust request decision := by
  obtain ⟨src, frame, now, model, hrequest, hdecision, hreq⟩ := h
  rw [on_req, hrequest, hdecision] at hreq
  dsimp only [Option.getD_some] at hreq
  split at hreq
  · exact nomatch hreq
  · exact nomatch hreq
  · exact nomatch hreq
  · exact nomatch hreq
  · next hcheck hdec =>
      have hshape : request_shape n.C request = .ok () := by
        rw [check_request] at hcheck
        obtain ⟨u, hevidence, -⟩ := bind_ok.mp hcheck
        rw [request_evidence] at hevidence
        obtain ⟨u', -, hshape⟩ := bind_ok.mp hevidence
        exact hshape
      refine ⟨hshape, hdec, ?_⟩
      split at hreq
      · exact nomatch hreq
      · split at hreq
        · rw [serve] at hreq
          split at hreq
          · exact nomatch hreq
          · split at hreq
            · exact nomatch hreq
            · next hclean => exact (List.append_eq_nil_iff.mp (not_not.mp hclean)).1
        · split at hreq
          · exact nomatch hreq
          · split at hreq
            · exact nomatch hreq
            · split at hreq
              · exact nomatch hreq
              · exact nomatch hreq

end

/-! ## Legs and pins -/

section

variable {F : Type}

/-- A leg in good shape is read as it is. -/
theorem from_wire_of_legShape {C : Crypto} {trust : TrustRoots} {decider : Option String} {v : Value F}
    {provider : String} (h : legShape C trust decider v = .ok provider) :
    ∃ l, Leg.from_wire v = some l ∧ l.provider = provider := by
  rw [legShape] at h
  obtain ⟨p, hp, h⟩ := bind_ok.mp h
  obtain ⟨u, hmodel, h⟩ := bind_ok.mp h
  obtain ⟨path, hpath, h⟩ := bind_ok.mp h
  obtain ⟨u₁, -, h⟩ := bind_ok.mp h
  obtain ⟨u₂, -, h⟩ := bind_ok.mp h
  obtain ⟨u₃, -, h⟩ := bind_ok.mp h
  obtain ⟨u₄, hvia, h⟩ := bind_ok.mp h
  obtain rfl := Except.ok.inj h
  have hprovider : getStr v "provider" = some p := (Option.filter_eq_some_iff.mp (orRefuse_ok.mp hp)).1
  obtain ⟨model, hmodel, -⟩ := (Option.any_eq_true _ _).mp (ensure_ok.mp hmodel)
  have hvia' : ∃ via, getStr v "via" = some via := by
    rw [viaShape] at hvia
    split at hvia
    · next hcentral => exact ⟨_, hcentral⟩
    · split at hvia
      · next hmesh => exact ⟨_, hmesh⟩
      · exact nomatch hvia
  obtain ⟨via, hvia⟩ := hvia'
  refine ⟨⟨p, model, path, via⟩, ?_, rfl⟩
  rw [Leg.from_wire, hprovider, hmodel, orRefuse_ok.mp hpath, hvia]
  rfl

/-- All legs are read, and go to different nodes. -/
theorem legs_of_legsShape {C : Crypto} {trust : TrustRoots} {decider : Option String} :
    ∀ (l : List (Value F)) (providers : List String),
      legsShape C trust decider providers l = .ok () →
        (l.filterMap Leg.from_wire).length = l.length ∧
        ((l.filterMap Leg.from_wire).map Leg.provider).Nodup ∧
        ∀ p ∈ (l.filterMap Leg.from_wire).map Leg.provider, p ∉ providers
  | [], _, _ => ⟨rfl, List.nodup_nil, fun _ h => nomatch h⟩
  | v :: rest, providers, h => by
      rw [legsShape] at h
      obtain ⟨p, hleg, h⟩ := bind_ok.mp h
      obtain ⟨u, hnew, h⟩ := bind_ok.mp h
      obtain ⟨leg, hwire, hp⟩ := from_wire_of_legShape hleg
      obtain ⟨hlen, hnodup, hout⟩ := legs_of_legsShape rest (p :: providers) h
      rw [List.filterMap_cons_some hwire, List.length_cons, hlen, List.map_cons, hp]
      refine ⟨rfl, List.nodup_cons.mpr ⟨fun hmem => hout p hmem List.mem_cons_self, hnodup⟩, ?_⟩
      intro q hq
      rcases List.mem_cons.mp hq with rfl | hq
      · exact ensure_ok.mp hnew
      · exact fun hold => hout q hq (List.mem_cons_of_mem p hold)

/-- The pins name different nodes. -/
theorem pins_of_pinsShape {C : Crypto} {models : List String} :
    ∀ (l : List (Value F)) (pinned : List String), pinsShape C models pinned l = .ok () →
      ((l.filterMap (fun pin => match pin with
        | .arr [.str p, .str m] => some (p, m)
        | _ => none)).map Prod.fst).Nodup ∧
      ∀ p ∈ (l.filterMap (fun pin => match pin with
        | .arr [.str p, .str m] => some (p, m)
        | _ => none)).map Prod.fst, p ∉ pinned
  | [], _, _ => ⟨List.nodup_nil, fun _ h => nomatch h⟩
  | pin :: rest, pinned, h => by
      rw [pinsShape] at h
      obtain ⟨⟨p, m⟩, hpin, h⟩ := bind_ok.mp h
      obtain ⟨u, hnew, h⟩ := bind_ok.mp h
      obtain ⟨hnodup, hout⟩ := pins_of_pinsShape rest (p :: pinned) h
      have hread := orRefuse_ok.mp hpin
      unfold pinOf at hread
      split at hread
      · next p' m' =>
          split at hread
          · obtain ⟨rfl, rfl⟩ := Prod.mk.inj (Option.some.inj hread)
            rw [List.filterMap_cons, List.map_cons]
            refine ⟨List.nodup_cons.mpr ⟨fun hmem => hout _ hmem List.mem_cons_self, hnodup⟩, ?_⟩
            intro q hq
            rcases List.mem_cons.mp hq with rfl | hq
            · exact ensure_ok.mp hnew
            · exact fun hold => hout q hq (List.mem_cons_of_mem _ hold)
          · exact nomatch hread
      · exact nomatch hread

variable [PyNumber F] {C : Crypto} {trust : TrustRoots} {request decision : Value F}

/-- A decision in good shape has legs, to different nodes. -/
theorem legPairs_of_check (h : check_decision C trust decision (some request) = .ok ()) :
    legPairs decision ≠ [] ∧ (legPairs decision).Nodup := by
  rw [check_decision] at h
  obtain ⟨u, -, h⟩ := bind_ok.mp h
  obtain ⟨u₁, hshape, -⟩ := bind_ok.mp h
  rw [decision_shape] at hshape
  obtain ⟨u₂, -, h⟩ := bind_ok.mp hshape
  obtain ⟨u₃, -, h⟩ := bind_ok.mp h
  obtain ⟨epoch, -, h⟩ := bind_ok.mp h
  obtain ⟨u₄, -, h⟩ := bind_ok.mp h
  obtain ⟨attempt, -, h⟩ := bind_ok.mp h
  obtain ⟨u₅, -, h⟩ := bind_ok.mp h
  obtain ⟨at_, -, h⟩ := bind_ok.mp h
  obtain ⟨legs, hlegs, h⟩ := bind_ok.mp h
  obtain ⟨u₆, hcount, h⟩ := bind_ok.mp h
  obtain ⟨hlen, hnodup, -⟩ := legs_of_legsShape legs [] h
  have hread : legsOf decision = legs.filterMap Leg.from_wire := by
    rw [legsOf, orRefuse_ok.mp hlegs, Option.getD_some]
  rw [legPairs, hread]
  constructor
  · intro hnil
    have hzero := List.length_eq_zero_iff.mpr hnil
    rw [List.length_map, hlen] at hzero
    have hpos := (ensure_ok.mp hcount).1
    omega
  · refine List.Nodup.of_map Prod.fst ?_
    rwa [List.map_map]

theorem pins_of_request (h : request_shape C request = .ok ()) : (pinsOf request).Nodup := by
  rw [request_shape] at h
  obtain ⟨u, -, h⟩ := bind_ok.mp h
  obtain ⟨listed, -, h⟩ := bind_ok.mp h
  obtain ⟨u₁, -, h⟩ := bind_ok.mp h
  obtain ⟨models, -, h⟩ := bind_ok.mp h
  obtain ⟨u₂, -, h⟩ := bind_ok.mp h
  obtain ⟨input, -, h⟩ := bind_ok.mp h
  obtain ⟨u₃, -, h⟩ := bind_ok.mp h
  obtain ⟨scopes, -, h⟩ := bind_ok.mp h
  obtain ⟨u₄, -, h⟩ := bind_ok.mp h
  obtain ⟨u₅, -, h⟩ := bind_ok.mp h
  obtain ⟨quorum, -, h⟩ := bind_ok.mp h
  obtain ⟨u₆, -, h⟩ := bind_ok.mp h
  obtain ⟨pins, hpins, h⟩ := bind_ok.mp h
  obtain ⟨u₇, -, h⟩ := bind_ok.mp h
  obtain ⟨u₈, hshape, -⟩ := bind_ok.mp h
  rw [pinsOf, orRefuse_ok.mp hpins, Option.getD_some]
  exact List.Nodup.of_map Prod.fst (pins_of_pinsShape pins [] hshape).1

omit [PyNumber F] in
/-- Legs that are not the pins are a violation, when there are pins. -/
theorem legs_of_clean (h : decision_violations decision request = []) (hpins : pinsOf request ≠ []) :
    (legPairs decision).toFinset = (pinsOf request).toFinset := by
  by_contra hne
  have hmem : "pin-violation" ∈ decision_violations decision request := by
    rw [decision_violations]
    refine List.mem_append_left _ (List.mem_append_right _ ?_)
    rw [if_pos ⟨hpins, hne⟩]
    exact List.mem_singleton_self _
  rw [h] at hmem
  exact nomatch hmem

/-- The legs of a decision in order are the pins of the request just when it has some. -/
theorem Accepted.pins_iff (h : Accepted C trust request decision) :
    (legPairs decision).Perm (pinsOf request) ↔ pinsOf request ≠ [] := by
  obtain ⟨hsome, hnodup⟩ := legPairs_of_check h.check
  constructor
  · intro hperm hnil
    rw [hnil] at hperm
    exact hsome hperm.eq_nil
  · intro hpins
    exact List.perm_of_nodup_nodup_toFinset_eq hnodup (pins_of_request h.shape)
      (legs_of_clean h.clean hpins)

/-- Signed by someone who may decide. -/
def ByDecider (trust : TrustRoots) (decision : Value F) : Prop :=
  ∃ decider, getStr decision "decider" = some decider ∧ trust.deciders decider = true

/-- If it is not signed by a decider, the decision takes the request to its pins. -/
def PinsOnly (trust : TrustRoots) (request decision : Value F) : Prop :=
  ¬ ByDecider trust decision → (legPairs decision).Perm (pinsOf request)

theorem Accepted.pinsOnly_iff (h : Accepted C trust request decision) :
    PinsOnly trust request decision ↔ ByDecider trust decision ∨ pinsOf request ≠ [] := by
  rw [PinsOnly, h.pins_iff, or_iff_not_imp_left]

/-- What a user or a model node accepts of someone who may not decide goes to the pins, just when
the user pinned something. -/
theorem pins_only_iff :
    (∀ (U : SafetyConfig F) (request decision : Value F), UserAccepts U request decision →
      (PinsOnly U.trust request decision ↔ ByDecider U.trust decision ∨ pinsOf request ≠ [])) ∧
    ∀ (n : MeshNode F) (request decision : Value F), NodeAccepts n request decision →
      (PinsOnly n.trust request decision ↔ ByDecider n.trust decision ∨ pinsOf request ≠ []) :=
  ⟨fun _ _ _ h => (accepted_of_user h).pinsOnly_iff, fun _ _ _ h => (accepted_of_node h).pinsOnly_iff⟩

end

/-! ## A request that pins nothing -/

namespace Unpinned

/-- Everyone is of the mesh, and nobody may decide. -/
def trust : TrustRoots where
  mesh _ := true
  users did := did = "did:u"
  deciders _ := false
  coordinators _ := false
  brokers _ := false
  operators _ := false

def node : MeshNode (Option Int) where
  C := .lenient
  trust := trust
  did := "did:p"
  serves := true
  ledger := {}
  advisory_at _ := none
  lent _ _ := true
  reaches _ := true

def request : Value (Option Int) :=
  .obj [("expires_at", .int 60), ("input", .str ""), ("issued_at", .int 0), ("models", .arr [.str "m"]),
    ("pins", .arr []), ("quorum", .int 1), ("req_id", .str "00000000000000000000000000000000"),
    ("scopes", .arr []), ("sig", .str ""), ("signer", .str "did:u"), ("type", .str REQUEST),
    ("user", .str "did:u")]

/-- A lockdown decision of any node, for two nodes of its own choice. -/
def decision : Value (Option Int) :=
  .obj [("attempt", .int 0), ("decider", .str "did:x"), ("epoch", .int 0), ("issued_at", .int 0),
    ("legs", .arr [(⟨"did:p", "m", ["did:x", "did:p"], VIA_MESH⟩ : Leg).to_wire,
      (⟨"did:q", "m", ["did:x", "did:q"], VIA_MESH⟩ : Leg).to_wire]),
    ("mode", .str MODE_LOCKDOWN), ("request_hash", .str (digest .lenient request)), ("sig", .str ""),
    ("signer", .str "did:x"), ("type", .str DECISION)]

def frame : Value (Option Int) :=
  .obj [("decision", decision), ("hop", .int 1), ("leg", .int 0), ("request", request)]

theorem answered : on_req node "did:x" frame (some 0) = .answered "m" := rfl

end Unpinned

/-- A node serves a request that pins nobody, along the decision of one that may not decide. -/
theorem unpinned_served : ¬ ∀ (n : MeshNode (Option Int)) (request decision : Value (Option Int)),
    NodeAccepts n request decision → PinsOnly n.trust request decision := by
  intro h
  have haccepts : NodeAccepts Unpinned.node Unpinned.request Unpinned.decision :=
    ⟨"did:x", Unpinned.frame, some 0, "m", rfl, rfl, Unpinned.answered⟩
  have hperm := h _ _ _ haccepts (fun ⟨_, _, hdecides⟩ => nomatch hdecides)
  exact absurd hperm.length_eq (by decide)

end Secdogie.Inference
