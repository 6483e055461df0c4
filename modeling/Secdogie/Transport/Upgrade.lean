/-
# `Secdogie.Transport.Upgrade` — from the relay to a direct path

A peer starts on the relay.  It is probed at the endpoints it may be reached
at, and its answer to a probe makes it direct; from then on messages for it go
to wherever the transport has its endpoint.  The transport's endpoint moves
with every probe and with the peer's own datagrams, and an answer is looked up
by its nonce alone: `sound_run` says under which conditions on the events a
peer is direct only where it has answered, and hears from this node only there.
-/
import Secdogie.Transport.Membership
import Secdogie.Transport.Udp

namespace Secdogie.Transport

open Secdogie.Graph Secdogie.Identity

def PROBE : String := "secdogie/upgrade/probe/v1"
def PROBE_ACK : String := "secdogie/upgrade/probe-ack/v1"
def CONNECT : String := "secdogie/upgrade/connect/v1"

/-- The host is whatever a CONNECT message says it is. -/
abbrev Address (F : Type) := Value F × Int

/-- An `Endpoint` whose host is not checked. -/
structure Candidate (F : Type) where
  kind : Kind
  host : Value F
  port : Int
  port_ok : 0 < port ∧ port < 65536

def Candidate.key {F : Type} (e : Candidate F) : Address F := (e.host, e.port)

/-! ## The direct-path state of a peer -/

inductive PathState where
  | relayed
  | probing
  | direct
deriving DecidableEq

structure UpgradeState (F : Type) where
  state : PathState := .relayed
  direct_endpoint : Option (Candidate F) := none
  last_seen : F

namespace UpgradeState

variable {F : Type} (st : UpgradeState F)

def is_direct : Bool := decide (st.state = .direct)

def begin_probe : UpgradeState F := if st.is_direct then st else { st with state := .probing }

def on_ack (_st : UpgradeState F) (e : Candidate F) (now : F) : UpgradeState F :=
  { state := .direct, direct_endpoint := some e, last_seen := now }

def touch (now : F) : UpgradeState F := if st.is_direct then { st with last_seen := now } else st

def on_timeout : UpgradeState F :=
  if st.is_direct then st else { st with state := .relayed, direct_endpoint := none }

def expire [PyFloat F] (now dead_after : F) : UpgradeState F :=
  if !st.is_direct then st
  else if PyFloat.le (PyFloat.sub now st.last_seen) dead_after then st
  else { st with state := .relayed, direct_endpoint := none }

end UpgradeState

/-! ## The upgrader -/

/-- A datagram that went out: to whom, where to, the nonce if it was a probe,
and whether the peer was direct. -/
structure Sent (F : Type) where
  to_did : String
  addr : Address F
  probe : Option String
  direct : Bool

structure UpgradeConfig (F : Type) where
  B : Builtins F
  /-- `json.loads` of bytes -/
  loads : List UInt8 → Loaded F
  /-- the peer of the session -/
  peer : String
  /-- `0.0` -/
  never : F

/-- The upgrader, with what it uses of its transport. -/
structure Upgrader (F : Type) where
  states : StrMap (UpgradeState F) := ∅
  /-- nonce to the endpoint being probed -/
  pending : StrMap (Candidate F) := ∅
  counter : Nat := 0
  /-- the session's endpoint -/
  active : Option (Candidate F) := none
  /-- the transport's endpoints -/
  endpoints : StrMap (Address F) := ∅
  /-- the transport can build frames for the peer -/
  keyed : String → Bool
  /-- the socket takes datagrams to the address; it raises if not -/
  sendto : Address F → Bool
  /-- newest first -/
  sent : List (Sent F) := []
  /-- who has answered a probe sent to it, and where that was sent -/
  proven : List (String × Address F) := []

section

variable {F : Type} (U : UpgradeConfig F)

/-- The message in the bytes, if they are one; `none` also when reading them
raises, as nothing comes of the bytes then. -/
def decode_upgrade (data : List UInt8) : Option (Value F) :=
  match U.loads data with
  | .value (.obj m) =>
      if textField (.obj m) "t" ∈ [some PROBE, some PROBE_ACK, some CONNECT] then some (.obj m)
      else none
  | _ => none

/-- `str(msg.get("nonce", ""))` -/
def nonceOf (msg : Value F) : String :=
  match field msg "nonce" with
  | none => ""
  | some v => U.B.str v

/-- The candidate that an item is, if it is one; `none` when this raises. -/
def candidateOf (item : Value F) : Option (Option (Candidate F)) :=
  match field item "kind", field item "host", field item "port" with
  | some kind, some host, some port =>
      match U.B.int port with
      | none => none
      | some none => some none
      | some (some port) =>
          match kind.asStr.bind Kind.ofText with
          | none => some none
          | some kind =>
              if h : 0 < port ∧ port < 65536 then some (some ⟨kind, host, port, h⟩) else some none
  | _, _, _ => some none

/-- `none` when this raises; the items of a text or an object are no candidates. -/
def endpoints_from (msg : Value F) : Option (List (Candidate F)) :=
  match field msg "endpoints" with
  | none | some (.str _) | some (.obj _) => some []
  | some (.arr items) => (items.mapM (candidateOf U)).map (List.filterMap id)
  | _ => none

/-- `f"{peer_did}#{counter}"` -/
def probeNonce (peer_did : String) (counter : Nat) : String := peer_did ++ "#" ++ toString counter

namespace Upgrader

variable (s : Upgrader F)

def state_for (peer_did : String) : UpgradeState F :=
  s.states.getD peer_did { last_seen := U.never }

/-- The transport's `route`, and what it returns: `none` when it raises. -/
def route (to_did : String) (probe : Option String) : Option Bool × Upgrader F :=
  match s.endpoints[to_did]? with
  | none => (some false, s)
  | some addr =>
      if !s.keyed to_did then (some false, s)
      else if !s.sendto addr then (none, s)
      else
        let direct := (state_for U s to_did).is_direct
        (some true, { s with sent := ⟨to_did, addr, probe, direct⟩ :: s.sent })

def probe (peer_did : String) (e : Candidate F) : Option Bool × Upgrader F :=
  let nonce := probeNonce peer_did (s.counter + 1)
  route U
    { s with
      states := s.states.insert peer_did (state_for U s peer_did).begin_probe
      counter := s.counter + 1
      pending := s.pending.insert nonce e
      endpoints := s.endpoints.insert peer_did e.key }
    peer_did (some nonce)

def keepalive (peer_did : String) : Option Bool × Upgrader F :=
  let st := state_for U s peer_did
  match st.direct_endpoint with
  | none => (some false, s)
  | some e => if st.is_direct then probe U s peer_did e else (some false, s)

/-- A value that can be in the key of a dictionary. -/
def hashable : Value F → Bool
  | .arr _ | .obj _ => false
  | _ => true

/-- An acknowledged probe: the sender is direct where the probe of the nonce
went.  `session.migrate` raises for a host that cannot be hashed. -/
def acked (from_did nonce : String) (now : F) : Upgrader F :=
  match s.pending[nonce]? with
  | none => s
  | some e =>
      let verified : Candidate F := { e with kind := .observed }
      { s with
        pending := s.pending.erase nonce
        states := s.states.insert from_did ((state_for U s from_did).on_ack verified now)
        active := if from_did = U.peer ∧ hashable e.host then some verified else s.active }

/-- The nonce of the answer to send back, if any. -/
def handle (from_did : String) (data : List UInt8) (now : F) :
    Option String × Upgrader F :=
  let s' := { s with states := s.states.insert from_did ((state_for U s from_did).touch now) }
  match decode_upgrade U data with
  | none => (none, s')
  | some msg =>
      if textField msg "t" = some PROBE then (some (nonceOf U msg), s')
      else if textField msg "t" = some PROBE_ACK then
        let nonce := nonceOf U msg
        let answered := s.sent.filter (fun d => d.to_did = from_did ∧ d.probe = some nonce)
        (none, acked U
          { s' with proven := answered.map (fun d => (from_did, d.addr)) ++ s.proven }
          from_did nonce now)
      else (none, s')

/-- Probes one after the other, up to one that raises. -/
def probeAll (peer_did : String) (s : Upgrader F) : List (Candidate F) → Upgrader F
  | [] => s
  | e :: es =>
      match probe U s peer_did e with
      | (none, s') => s'
      | (some _, s') => probeAll peer_did s' es

/-- The endpoints of a CONNECT message, if it is one and they can be read. -/
def connectOf (data : List UInt8) : Option (List (Candidate F)) :=
  (decode_upgrade U data).bind fun msg =>
    if textField msg "t" = some CONNECT then endpoints_from U msg else none

/-- The answering CONNECT goes over the relay and changes nothing here. -/
def handle_relay (from_did : String) (data : List UInt8) : Upgrader F :=
  match connectOf U data with
  | none => s
  | some es => probeAll U from_did s es

def on_timeout (peer_did : String) : Upgrader F :=
  { s with
    pending := s.pending.filter (fun nonce _ => !(peer_did ++ "#").toList.isPrefixOf nonce.toList)
    states := s.states.insert peer_did (state_for U s peer_did).on_timeout }

def sweep [PyFloat F] (now dead_after : F) : Upgrader F :=
  { s with states := s.states.map (fun _ st => st.expire now dead_after) }

/-- An application message, when the direct path is taken; what does not go
that way goes over the relay. -/
def send (peer_did : String) : Option Bool × Upgrader F :=
  if (state_for U s peer_did).is_direct then route U s peer_did none else (some false, s)

end Upgrader

/-! ## Runs -/

inductive UpgradeEvent (F : Type) where
  | probe (peer_did : String) (e : Candidate F)
  | keepalive (peer_did : String)
  /-- the transport hands up a frame of `from_did` that came from `addr` -/
  | inbound (from_did : String) (addr : Address F) (newest : Bool) (data : List UInt8) (now : F)
  | inbound_relay (from_did : String) (data : List UInt8)
  | on_timeout (peer_did : String)
  | sweep (now dead_after : F)
  | send (peer_did : String)
  /-- the transport's `set_peer_endpoint` and `migrate` -/
  | set_peer_endpoint (did : String) (addr : Address F)
  /-- bindings are learned, the network changes -/
  | surroundings (keyed : String → Bool) (sendto : Address F → Bool)

namespace Upgrader

variable (s : Upgrader F)

def inbound (from_did : String) (addr : Address F) (newest : Bool) (data : List UInt8)
    (now : F) : Upgrader F :=
  let s' := { s with endpoints := adopt s.endpoints newest from_did addr }
  match handle U s' from_did data now with
  | (none, s'') => s''
  | (some _, s'') => (route U s'' from_did none).2

def step [PyFloat F] (s : Upgrader F) : UpgradeEvent F → Upgrader F
  | .probe peer_did e => (probe U s peer_did e).2
  | .keepalive peer_did => (keepalive U s peer_did).2
  | .inbound from_did addr newest data now => inbound U s from_did addr newest data now
  | .inbound_relay from_did data => handle_relay U s from_did data
  | .on_timeout peer_did => on_timeout U s peer_did
  | .sweep now dead_after => sweep s now dead_after
  | .send peer_did => (send U s peer_did).2
  | .set_peer_endpoint did addr => { s with endpoints := s.endpoints.insert did addr }
  | .surroundings keyed sendto => { s with keyed, sendto }

def run [PyFloat F] (s : Upgrader F) (es : List (UpgradeEvent F)) : Upgrader F :=
  es.foldl (step U) s

/-! ## What is to hold, and when it does -/

/-- A peer that is direct has answered a probe sent to it at its endpoint, what
goes to it goes where it has answered one, and so did what went there. -/
structure Sound (s : Upgrader F) : Prop where
  direct : ∀ did, (state_for U s did).is_direct = true →
    ∃ e, (state_for U s did).direct_endpoint = some e ∧ (did, e.key) ∈ s.proven
  goes : ∀ did addr, (state_for U s did).is_direct = true → s.endpoints[did]? = some addr →
    (did, addr) ∈ s.proven
  sent : ∀ d ∈ s.sent, d.direct = true → (d.to_did, d.addr) ∈ s.proven

/-- The peer is not direct, or has answered a probe at the address. -/
def Stays (did : String) (addr : Address F) : Prop :=
  (state_for U s did).is_direct = true → (did, addr) ∈ s.proven

/-- The nonce of an answer to a probe. -/
def ackOf (data : List UInt8) : Option String :=
  (decode_upgrade U data).bind fun msg =>
    if textField msg "t" = some PROBE_ACK then some (nonceOf U msg) else none

/-- What an event must respect: nothing moves the endpoint of a direct peer to
where it has not answered; an answer that counts is from the peer whose probe
it names; and when it makes the peer direct, the transport has the peer where
that probe went, or where it has answered before. -/
def Meets : UpgradeEvent F → Prop
  | .probe peer_did e => Stays U s peer_did e.key
  | .set_peer_endpoint did addr => Stays U s did addr
  | .inbound_relay from_did data =>
      ∀ es, connectOf U data = some es → ∀ e ∈ es, Stays U s from_did e.key
  | .inbound from_did addr newest data _ =>
      (newest = true ∨ from_did ∉ s.endpoints → Stays U s from_did addr) ∧
      ∀ nonce e, ackOf U data = some nonce → s.pending[nonce]? = some e →
        (∃ d ∈ s.sent, d.to_did = from_did ∧ d.probe = some nonce) ∧
        ((state_for U s from_did).is_direct = false →
          ∀ a, (adopt s.endpoints newest from_did addr)[from_did]? = some a →
            a = e.key ∨ (from_did, a) ∈ s.proven)
  | _ => True

/-- Every event of a run does. -/
def AllMeet [PyFloat F] (s : Upgrader F) : List (UpgradeEvent F) → Prop
  | [] => True
  | ev :: es => Meets U s ev ∧ AllMeet (step U s ev) es

/-! ## Nonces -/

theorem append_cons_inj {α : Type} {xs xs' ys ys' : List α} {c : α} (hys : c ∉ ys) (hys' : c ∉ ys')
    (h : xs ++ c :: ys = xs' ++ c :: ys') : ys = ys' := by
  rcases List.append_eq_append_iff.mp h with ⟨zs, -, heq⟩ | ⟨zs, -, heq⟩
  · cases zs with
    | nil => exact (List.cons.inj heq).2
    | cons z zs =>
        have hmem : c ∈ ys := by
          rw [(List.cons.inj heq).2]
          exact List.mem_append_right zs List.mem_cons_self
        exact absurd hmem hys
  · cases zs with
    | nil => exact (List.cons.inj heq).2.symm
    | cons z zs =>
        have hmem : c ∈ ys' := by
          rw [(List.cons.inj heq).2]
          exact List.mem_append_right zs List.mem_cons_self
        exact absurd hmem hys'

theorem hash_not_mem_toDigits (n : Nat) : '#' ∉ Nat.toDigits 10 n := by
  intro h
  have := Nat.isDigit_of_mem_toDigits (by decide) (by decide) h
  revert this
  decide

theorem toList_probeNonce (did : String) (n : Nat) :
    (probeNonce did n).toList = did.toList ++ '#' :: Nat.toDigits 10 n := by
  rw [probeNonce, String.toList_append, String.toList_append, Nat.toString_eq_ofList_toDigits]
  simp

/-- No two probes have the same nonce. -/
theorem probeNonce_inj {did did' : String} {n m : Nat} (h : probeNonce did n = probeNonce did' m) :
    n = m := by
  have hlist := congrArg String.toList h
  rw [toList_probeNonce, toList_probeNonce] at hlist
  have hdigits := append_cons_inj (hash_not_mem_toDigits n) (hash_not_mem_toDigits m) hlist
  rw [← Nat.ofDigitChars_ten_toDigits (n := n), hdigits, Nat.ofDigitChars_ten_toDigits]

/-! ## What each part keeps -/

/-- What holds in every state of such a run. -/
structure Inv (s : Upgrader F) : Prop extends Sound U s where
  /-- a pending nonce names the endpoint its probes went to -/
  pending : ∀ nonce e, s.pending[nonce]? = some e → ∀ d ∈ s.sent, d.probe = some nonce →
    d.addr = e.key
  /-- nonces are numbered up to the counter -/
  pending_le : ∀ nonce, nonce ∈ s.pending → ∃ did n, n ≤ s.counter ∧ nonce = probeNonce did n
  sent_le : ∀ d ∈ s.sent, ∀ nonce, d.probe = some nonce →
    ∃ did n, n ≤ s.counter ∧ nonce = probeNonce did n

variable {U} {s}

theorem state_for_insert {states : StrMap (UpgradeState F)} {t : Upgrader F} {did did' : String}
    {st : UpgradeState F} (h : t.states = states.insert did st) (hs : s.states = states) :
    state_for U t did' = if did = did' then st else state_for U s did' := by
  rw [state_for, state_for, h, hs, Std.ExtTreeMap.getD_insert]
  simp only [Std.LawfulEqCmp.compare_eq_iff_eq]

/-- A step that sends no probe and keeps what is pending, apart from some of
it, keeps the invariant if it does for what it does to the direct peers. -/
theorem Inv.of_kept {s' : Upgrader F} (h : Inv U s) (hsent : s'.sent = s.sent)
    (hpending : ∀ (nonce : String) e, s'.pending[nonce]? = some e → s.pending[nonce]? = some e)
    (hcounter : s'.counter = s.counter) (hproven : ∀ p ∈ s.proven, p ∈ s'.proven)
    (hdirect : ∀ did, (state_for U s' did).is_direct = true →
      (state_for U s did).is_direct = true ∧
          (state_for U s' did).direct_endpoint = (state_for U s did).direct_endpoint ∨
        ∃ e, (state_for U s' did).direct_endpoint = some e ∧ (did, e.key) ∈ s'.proven)
    (hroute : ∀ did addr, (state_for U s' did).is_direct = true →
      s'.endpoints[did]? = some addr → (did, addr) ∈ s'.proven) : Inv U s' := by
  refine ⟨⟨?_, hroute, ?_⟩, ?_, ?_, ?_⟩
  · intro did hdid
    rcases hdirect did hdid with ⟨hwas, heq⟩ | hnew
    · obtain ⟨e, he, hmem⟩ := h.direct did hwas
      exact ⟨e, heq.trans he, hproven _ hmem⟩
    · exact hnew
  · intro d hd hwhile
    exact hproven _ (h.sent d (hsent ▸ hd) hwhile)
  · intro nonce e he d hd hprobe
    exact h.pending nonce e (hpending nonce e he) d (hsent ▸ hd) hprobe
  · intro nonce hmem
    obtain ⟨e, he⟩ := StrMap.mem_iff_get.mp hmem
    rw [hcounter]
    exact h.pending_le nonce (StrMap.mem_of_get (hpending nonce e he))
  · intro d hd nonce hprobe
    rw [hcounter]
    exact h.sent_le d (hsent ▸ hd) nonce hprobe

/-- The special case of a change to what the transport knows. -/
theorem Inv.of_endpoints {s' : Upgrader F} (h : Inv U s) (hstates : s'.states = s.states)
    (hsent : s'.sent = s.sent) (hpending : s'.pending = s.pending) (hcounter : s'.counter = s.counter)
    (hproven : s'.proven = s.proven)
    (hroute : ∀ did addr, s'.endpoints[did]? = some addr →
      s.endpoints[did]? = some addr ∨ Stays U s did addr) : Inv U s' := by
  have hstate : ∀ did, state_for U s' did = state_for U s did := by
    intro did
    rw [state_for, state_for, hstates]
  refine h.of_kept hsent ?_ hcounter ?_ ?_ ?_
  · intro nonce e he
    rwa [hpending] at he
  · intro p hp
    rwa [hproven]
  · intro did hdid
    rw [hstate] at hdid ⊢
    exact .inl ⟨hdid, rfl⟩
  · intro did addr hdid haddr
    rw [hstate] at hdid
    rw [hproven]
    rcases hroute did addr haddr with hold | hstays
    · exact h.goes did addr hdid hold
    · exact hstays hdid

theorem Inv.routed (h : Inv U s) (to_did : String) (probe : Option String)
    (hprobe : ∀ nonce, probe = some nonce →
      (∃ n, n ≤ s.counter ∧ nonce = probeNonce to_did n) ∧
      ∀ e addr, s.pending[nonce]? = some e → s.endpoints[to_did]? = some addr → addr = e.key) :
    Inv U (route U s to_did probe).2 := by
  rw [route]
  split
  · exact h
  · next addr haddr =>
      split_ifs
      · exact h
      · exact h
      · refine ⟨⟨h.direct, h.goes, ?_⟩, ?_, h.pending_le, ?_⟩
        · intro d hd hwhile
          rcases List.mem_cons.mp hd with rfl | hd
          · exact h.goes to_did addr hwhile haddr
          · exact h.sent d hd hwhile
        · intro nonce e he d hd hnonce
          rcases List.mem_cons.mp hd with rfl | hd
          · exact (hprobe nonce hnonce).2 e addr he haddr
          · exact h.pending nonce e he d hd hnonce
        · intro d hd nonce hnonce
          rcases List.mem_cons.mp hd with rfl | hd
          · obtain ⟨n, hn, heq⟩ := (hprobe nonce hnonce).1
            exact ⟨to_did, n, hn, heq⟩
          · exact h.sent_le d hd nonce hnonce

/-- Nothing has the nonce of the next probe. -/
theorem Inv.fresh (h : Inv U s) (peer_did : String) {d : Sent F} (hd : d ∈ s.sent) :
    d.probe ≠ some (probeNonce peer_did (s.counter + 1)) := by
  intro heq
  obtain ⟨did, n, hn, hnonce⟩ := h.sent_le d hd _ heq
  have := probeNonce_inj hnonce
  omega

theorem begin_probe_is_direct (st : UpgradeState F) :
    st.begin_probe.is_direct = st.is_direct ∧
      (st.is_direct = true → st.begin_probe = st) := by
  rw [UpgradeState.begin_probe]
  cases hdirect : st.is_direct with
  | false => exact ⟨rfl, fun hfalse => by cases hfalse⟩
  | true => exact ⟨hdirect, fun _ => rfl⟩

/-- What a probe changes before its datagram goes out. -/
theorem Inv.dialed {t : Upgrader F} (h : Inv U s) {peer_did : String} {e : Candidate F}
    (hstays : Stays U s peer_did e.key)
    (hstates : t.states = s.states.insert peer_did (state_for U s peer_did).begin_probe)
    (hsent : t.sent = s.sent) (hcounter : t.counter = s.counter + 1)
    (hpending : t.pending = s.pending.insert (probeNonce peer_did (s.counter + 1)) e)
    (hendpoints : t.endpoints = s.endpoints.insert peer_did e.key)
    (hproven : t.proven = s.proven) : Inv U t := by
  have hstate : ∀ did, (state_for U t did).is_direct = (state_for U s did).is_direct ∧
      ((state_for U s did).is_direct = true → state_for U t did = state_for U s did) := by
    intro did
    rw [state_for_insert hstates rfl]
    split_ifs with hdid
    · subst hdid
      exact begin_probe_is_direct _
    · exact ⟨rfl, fun _ => rfl⟩
  have hle : s.counter ≤ t.counter := by
    rw [hcounter]
    exact Nat.le_succ _
  refine ⟨⟨?_, ?_, ?_⟩, ?_, ?_, ?_⟩
  · intro did hdid
    rw [(hstate did).1] at hdid
    rw [(hstate did).2 hdid, hproven]
    exact h.direct did hdid
  · intro did addr hdid haddr
    rw [(hstate did).1] at hdid
    rw [hproven]
    rw [hendpoints, StrMap.get_insert] at haddr
    split_ifs at haddr with heq
    · cases haddr
      subst heq
      exact hstays hdid
    · exact h.goes did addr hdid haddr
  · intro d hd hwhile
    rw [hproven]
    exact h.sent d (hsent ▸ hd) hwhile
  · intro nonce e' he' d hd hnonce
    rw [hsent] at hd
    rw [hpending, StrMap.get_insert] at he'
    split_ifs at he' with heq
    · exact absurd (heq ▸ hnonce) (h.fresh peer_did hd)
    · exact h.pending nonce e' he' d hd hnonce
  · intro nonce hmem
    rw [hpending] at hmem
    rcases StrMap.mem_insert.mp hmem with rfl | hmem
    · exact ⟨peer_did, s.counter + 1, hcounter.ge, rfl⟩
    · obtain ⟨did, n, hn, heq⟩ := h.pending_le nonce hmem
      exact ⟨did, n, hn.trans hle, heq⟩
  · intro d hd nonce hnonce
    obtain ⟨did, n, hn, heq⟩ := h.sent_le d (hsent ▸ hd) nonce hnonce
    exact ⟨did, n, hn.trans hle, heq⟩

theorem Inv.probed (h : Inv U s) (peer_did : String) (e : Candidate F)
    (hstays : Stays U s peer_did e.key) : Inv U (probe U s peer_did e).2 := by
  rw [probe]
  refine Inv.routed ?_ _ _ ?_
  · exact h.dialed hstays rfl rfl rfl rfl rfl rfl
  intro nonce hnonce
  cases hnonce
  refine ⟨⟨s.counter + 1, le_rfl, rfl⟩, ?_⟩
  intro e' addr he' haddr
  dsimp only at he' haddr
  rw [StrMap.get_insert, if_pos rfl] at he' haddr
  cases he'
  cases haddr
  rfl

/-- Probing proves nothing, and makes nobody direct. -/
theorem route_kept (to_did : String) (nonce : Option String) :
    (route U s to_did nonce).2.states = s.states ∧ (route U s to_did nonce).2.proven = s.proven := by
  rw [route]
  split
  · exact ⟨rfl, rfl⟩
  · split_ifs <;> exact ⟨rfl, rfl⟩

theorem stays_probe {peer_did did : String} {e : Candidate F} {addr : Address F}
    (h : Stays U s did addr) : Stays U (probe U s peer_did e).2 did addr := by
  intro hdirect
  obtain ⟨hstates, hproven⟩ := route_kept (U := U)
    (s := { s with
      states := s.states.insert peer_did (state_for U s peer_did).begin_probe
      counter := s.counter + 1
      pending := s.pending.insert (probeNonce peer_did (s.counter + 1)) e
      endpoints := s.endpoints.insert peer_did e.key })
    peer_did (some (probeNonce peer_did (s.counter + 1)))
  rw [probe] at hdirect ⊢
  rw [hproven]
  rw [state_for_insert hstates rfl] at hdirect
  refine h ?_
  split_ifs at hdirect with hdid
  · subst hdid
    rwa [(begin_probe_is_direct _).1] at hdirect
  · exact hdirect

theorem Inv.probedAll {peer_did : String} {es : List (Candidate F)} (h : Inv U s)
    (hstays : ∀ e ∈ es, Stays U s peer_did e.key) : Inv U (probeAll U peer_did s es) := by
  induction es generalizing s with
  | nil => exact h
  | cons e es ih =>
      have hprobed := h.probed peer_did e (hstays e List.mem_cons_self)
      have hlater : ∀ e' ∈ es, Stays U (probe U s peer_did e).2 peer_did e'.key :=
        fun e' he' => stays_probe (hstays e' (List.mem_cons_of_mem e he'))
      rw [probeAll]
      split
      · next s' heq =>
          rw [heq] at hprobed
          exact hprobed
      · next s' heq =>
          rw [heq] at hprobed hlater
          exact ih hprobed hlater

/-! ## What a peer sends -/

theorem touch_is_direct (st : UpgradeState F) (now : F) :
    (st.touch now).is_direct = st.is_direct ∧
      (st.touch now).direct_endpoint = st.direct_endpoint := by
  rw [UpgradeState.touch]
  split_ifs <;> exact ⟨rfl, rfl⟩

/-- A state for a peer that is direct only if it was, and where it was. -/
theorem Inv.restated {t : Upgrader F} {st : UpgradeState F} {did : String} (h : Inv U s)
    (hstates : t.states = s.states.insert did st)
    (hst : st.is_direct = true → (state_for U s did).is_direct = true ∧
      st.direct_endpoint = (state_for U s did).direct_endpoint)
    (hsent : t.sent = s.sent)
    (hpending : ∀ (nonce : String) e, t.pending[nonce]? = some e → s.pending[nonce]? = some e)
    (hcounter : t.counter = s.counter) (hendpoints : t.endpoints = s.endpoints)
    (hproven : ∀ p ∈ s.proven, p ∈ t.proven) : Inv U t := by
  have hstate : ∀ did', (state_for U t did').is_direct = true →
      (state_for U s did').is_direct = true ∧
        (state_for U t did').direct_endpoint = (state_for U s did').direct_endpoint := by
    intro did' hdid'
    rw [state_for_insert hstates rfl] at hdid' ⊢
    split_ifs at hdid' ⊢ with heq
    · subst heq
      exact hst hdid'
    · exact ⟨hdid', rfl⟩
  refine h.of_kept hsent hpending hcounter hproven ?_ ?_
  · intro did' hdid'
    exact .inl (hstate did' hdid')
  · intro did' addr hdid' haddr
    rw [hendpoints] at haddr
    exact hproven _ (h.goes did' addr (hstate did' hdid').1 haddr)

/-- A state for a peer that is direct where the peer has answered. -/
theorem Inv.upgraded {t : Upgrader F} {st : UpgradeState F} {did : String} (h : Inv U s)
    (hstates : t.states = s.states.insert did st)
    (hst : ∃ e, st.direct_endpoint = some e ∧ (did, e.key) ∈ s.proven)
    (hthere : (state_for U s did).is_direct = false →
      ∀ a, s.endpoints[did]? = some a → (did, a) ∈ s.proven)
    (hsent : t.sent = s.sent)
    (hpending : ∀ (nonce : String) e, t.pending[nonce]? = some e → s.pending[nonce]? = some e)
    (hcounter : t.counter = s.counter) (hendpoints : t.endpoints = s.endpoints)
    (hproven : t.proven = s.proven) : Inv U t := by
  refine h.of_kept hsent hpending hcounter (fun p hp => hproven ▸ hp) ?_ ?_
  · intro did' hdid'
    rw [state_for_insert hstates rfl] at hdid' ⊢
    split_ifs at hdid' ⊢ with heq
    · subst heq
      rw [hproven]
      exact .inr hst
    · exact .inl ⟨hdid', rfl⟩
  · intro did' addr hdid' haddr
    rw [hendpoints] at haddr
    rw [hproven]
    rw [state_for_insert hstates rfl] at hdid'
    split_ifs at hdid' with heq
    · subst heq
      cases hwas : (state_for U s did).is_direct with
      | false => exact hthere hwas addr haddr
      | true => exact h.goes did addr hwas haddr
    · exact h.goes did' addr hdid' haddr

/-- An answer from the peer that the probe of the nonce went to. -/
theorem Inv.acked {from_did nonce : String} {now : F} (h : Inv U s)
    (hanswer : ∀ e, s.pending[nonce]? = some e → (from_did, e.key) ∈ s.proven ∧
      ((state_for U s from_did).is_direct = false →
        ∀ a, s.endpoints[from_did]? = some a → (from_did, a) ∈ s.proven)) :
    Inv U (acked U s from_did nonce now) := by
  rw [Upgrader.acked]
  split
  · exact h
  · next e he =>
      obtain ⟨hproven, hthere⟩ := hanswer e he
      refine h.upgraded rfl ⟨{ e with kind := .observed }, rfl, hproven⟩ hthere rfl ?_ rfl rfl rfl
      intro nonce' e' he'
      dsimp only at he'
      rw [StrMap.get_erase] at he'
      split_ifs at he'
      exact he'

theorem Inv.touched {t : Upgrader F} (h : Inv U s) {from_did : String} {now : F}
    (hstates : t.states = s.states.insert from_did ((state_for U s from_did).touch now))
    (hsent : t.sent = s.sent) (hpending : t.pending = s.pending) (hcounter : t.counter = s.counter)
    (hendpoints : t.endpoints = s.endpoints) (hproven : ∀ p ∈ s.proven, p ∈ t.proven) :
    Inv U t := by
  obtain ⟨hdirect, hendpoint⟩ := touch_is_direct (state_for U s from_did) now
  refine h.restated hstates ?_ hsent ?_ hcounter hendpoints hproven
  · intro hst
    exact ⟨hdirect ▸ hst, hendpoint⟩
  · intro nonce e he
    rwa [hpending] at he

theorem Inv.handled {from_did : String} {data : List UInt8} {now : F} (h : Inv U s)
    (hack : ∀ nonce e, ackOf U data = some nonce → s.pending[nonce]? = some e →
      (∃ d ∈ s.sent, d.to_did = from_did ∧ d.probe = some nonce) ∧
      ((state_for U s from_did).is_direct = false →
        ∀ a, s.endpoints[from_did]? = some a → a = e.key ∨ (from_did, a) ∈ s.proven)) :
    Inv U (handle U s from_did data now).2 := by
  rw [handle]
  cases hmsg : decode_upgrade U data with
  | none => exact h.touched rfl rfl rfl rfl rfl (fun _ hp => hp)
  | some msg =>
      dsimp only
      split_ifs with hprobe hprobeAck
      · exact h.touched rfl rfl rfl rfl rfl (fun _ hp => hp)
      · have hnonce : ackOf U data = some (nonceOf U msg) := by
          rw [ackOf, hmsg, Option.bind_some, if_pos hprobeAck]
        refine Inv.acked ?_ ?_
        · exact h.touched rfl rfl rfl rfl rfl (fun _ hp => List.mem_append_right _ hp)
        · intro e he
          obtain ⟨⟨d, hd, hto, hdprobe⟩, hthere⟩ := hack _ e hnonce he
          -- the probe of the nonce went where the nonce points
          have hkey : d.addr = e.key := h.pending _ e he d hd hdprobe
          have hproven : (from_did, e.key) ∈ (s.sent.filter (fun d => decide
              (d.to_did = from_did ∧ d.probe = some (nonceOf U msg)))).map
                (fun d => (from_did, d.addr)) ++ s.proven := by
            refine List.mem_append_left _ (List.mem_map.mpr ⟨d, ?_, by rw [hkey]⟩)
            exact List.mem_filter.mpr ⟨hd, decide_eq_true ⟨hto, hdprobe⟩⟩
          refine ⟨hproven, ?_⟩
          intro hwas a ha
          rw [state_for_insert rfl rfl, if_pos rfl] at hwas
          rcases hthere ((touch_is_direct _ now).1 ▸ hwas) a ha with rfl | hold
          · exact hproven
          · exact List.mem_append_right _ hold
      · exact h.touched rfl rfl rfl rfl rfl (fun _ hp => hp)

theorem adopt_get {A : Type} {endpoints : StrMap A} {newest : Bool} {signer did : String} {addr a : A}
    (h : (adopt endpoints newest signer addr)[did]? = some a) :
    endpoints[did]? = some a ∨
      did = signer ∧ a = addr ∧ (newest = true ∨ signer ∉ endpoints) := by
  rw [adopt] at h
  split_ifs at h with hmoves
  · rw [StrMap.get_insert] at h
    split_ifs at h with heq
    · cases h
      exact .inr ⟨heq.symm, rfl, hmoves⟩
    · exact .inl h
  · exact .inl h

theorem Inv.received {from_did : String} {addr : Address F} {newest : Bool} {data : List UInt8}
    {now : F} (h : Inv U s) (hmeets : Meets U s (.inbound from_did addr newest data now)) :
    Inv U (inbound U s from_did addr newest data now) := by
  obtain ⟨hmoves, hack⟩ := hmeets
  have hadopted : Inv U { s with endpoints := adopt s.endpoints newest from_did addr } := by
    refine h.of_endpoints rfl rfl rfl rfl rfl ?_
    intro did a ha
    rcases adopt_get ha with hold | ⟨rfl, rfl, hnew⟩
    · exact .inl hold
    · exact .inr (hmoves hnew)
  have hhandled : Inv U (handle U _ from_did data now).2 := hadopted.handled hack
  rw [inbound]
  split
  · next s'' heq =>
      rw [heq] at hhandled
      exact hhandled
  · next s'' heq =>
      rw [heq] at hhandled
      refine hhandled.routed from_did none ?_
      intro nonce hnone
      cases hnone

theorem Inv.timedOut (h : Inv U s) (peer_did : String) : Inv U (on_timeout U s peer_did) := by
  refine h.restated rfl ?_ rfl ?_ rfl rfl (fun _ hp => hp)
  · intro hst
    rw [UpgradeState.on_timeout] at hst ⊢
    split_ifs at hst ⊢ with hwas
    · exact ⟨hwas, rfl⟩
    · cases hst
  · intro nonce e he
    dsimp only [on_timeout] at he
    rw [Std.ExtTreeMap.getElem?_filter'] at he
    exact (Option.filter_eq_some_iff.mp he).1

theorem inv_init (endpoints : StrMap (Address F)) (keyed : String → Bool)
    (sendto : Address F → Bool) : Inv U { endpoints, keyed, sendto } := by
  have hrelayed : ∀ did, (state_for U ({ endpoints, keyed, sendto } : Upgrader F) did).is_direct =
      false := by
    intro did
    rw [state_for, Std.ExtTreeMap.getD_empty]
    rfl
  refine ⟨⟨?_, ?_, ?_⟩, ?_, ?_, ?_⟩
  · intro did hdid
    rw [hrelayed] at hdid
    cases hdid
  · intro did addr hdid
    rw [hrelayed] at hdid
    cases hdid
  · intro d hd
    cases hd
  · intro nonce e he
    rw [StrMap.get_empty] at he
    cases he
  · intro nonce hmem
    exact absurd hmem Std.ExtTreeMap.not_mem_empty
  · intro d hd
    cases hd

variable [PyFloat F]

theorem expire_is_direct {st : UpgradeState F} {now dead_after : F}
    (h : (st.expire now dead_after).is_direct = true) : st.expire now dead_after = st := by
  rw [UpgradeState.expire] at h ⊢
  split_ifs at h ⊢
  · rfl
  · rfl
  · cases h

theorem Inv.swept (h : Inv U s) (now dead_after : F) : Inv U (sweep s now dead_after) := by
  have hstate : ∀ did, (state_for U (sweep s now dead_after) did).is_direct = true →
      state_for U (sweep s now dead_after) did = state_for U s did := by
    intro did hdid
    rw [state_for, state_for, sweep, Std.ExtTreeMap.getD_eq_getD_getElem?,
      Std.ExtTreeMap.getD_eq_getD_getElem?, Std.ExtTreeMap.getElem?_map] at *
    cases hget : s.states[did]? with
    | none => rfl
    | some st =>
        rw [hget] at hdid
        exact expire_is_direct hdid
  refine h.of_kept rfl (fun _ _ he => he) rfl (fun _ hp => hp) ?_ ?_
  · intro did hdid
    have heq := hstate did hdid
    rw [heq] at hdid ⊢
    exact .inl ⟨hdid, rfl⟩
  · intro did addr hdid haddr
    exact h.goes did addr (hstate did hdid ▸ hdid) haddr

/-! ## Every run -/

theorem Inv.step {ev : UpgradeEvent F} (h : Inv U s) (hmeets : Meets U s ev) :
    Inv U (step U s ev) := by
  cases ev with
  | probe peer_did e => exact h.probed peer_did e hmeets
  | keepalive peer_did =>
      rw [Upgrader.step, keepalive]
      split
      · exact h
      · next e he =>
          split_ifs with hdirect
          · -- a direct peer has answered where it is probed again
            refine h.probed peer_did e (fun _ => ?_)
            obtain ⟨e', he', hproven⟩ := h.direct peer_did hdirect
            rw [he] at he'
            cases he'
            exact hproven
          · exact h
  | inbound from_did addr newest data now => exact h.received hmeets
  | inbound_relay from_did data =>
      rw [Upgrader.step, handle_relay]
      split
      · exact h
      · next es hes => exact h.probedAll (hmeets es hes)
  | on_timeout peer_did => exact h.timedOut peer_did
  | sweep now dead_after => exact h.swept now dead_after
  | send peer_did =>
      rw [Upgrader.step, send]
      split_ifs
      · refine h.routed peer_did none ?_
        intro nonce hnone
        cases hnone
      · exact h
  | set_peer_endpoint did addr =>
      refine h.of_endpoints rfl rfl rfl rfl rfl ?_
      intro did' a ha
      dsimp only [Upgrader.step] at ha
      rw [StrMap.get_insert] at ha
      split_ifs at ha with heq
      · cases ha
        subst heq
        exact .inr hmeets
      · exact .inl ha
  | surroundings keyed sendto =>
      refine h.of_endpoints rfl rfl rfl rfl rfl ?_
      intro did a ha
      exact .inl ha

theorem Inv.run {es : List (UpgradeEvent F)} (h : Inv U s) (hmeets : AllMeet U s es) :
    Inv U (run U s es) := by
  induction es generalizing s with
  | nil => exact h
  | cons ev es ih => exact ih (h.step hmeets.1) hmeets.2

/-- In a run whose events all meet the condition, every peer that is direct has
answered a probe sent to it at its endpoint, and nothing goes to a direct peer
elsewhere than where it has answered. -/
theorem sound_run (U : UpgradeConfig F) (endpoints : StrMap (Address F)) (keyed : String → Bool)
    (sendto : Address F → Bool) (es : List (UpgradeEvent F))
    (h : AllMeet U { endpoints, keyed, sendto } es) :
    Sound U (run U { endpoints, keyed, sendto } es) :=
  ((inv_init endpoints keyed sendto).run h).toSound

end Upgrader

end

/-! ## One probe, and who answers it -/

namespace Upgrader

namespace OneProbe

def builtins : Builtins (Option Int) where
  str v := v.asStr.getD ""
  int
    | .int n => some (some n)
    | _ => some none

/-- The answer to the first probe of `did:p`: here all that is ever received. -/
def answer : Value (Option Int) := .obj [("nonce", .str "did:p#1"), ("t", .str PROBE_ACK)]

def config : UpgradeConfig (Option Int) where
  B := builtins
  loads _ := .value answer
  peer := "did:p"
  never := some 0

def home : Candidate (Option Int) := ⟨.candidate, .str "198.51.100.7", 5000, by decide⟩

def start : Upgrader (Option Int) where
  keyed _ := true
  sendto _ := true

def probed : Upgrader (Option Int) := (probe config start "did:p" home).2

theorem probeNonce_one : probeNonce "did:p" (start.counter + 1) = "did:p#1" := by decide

theorem answer_t : textField answer "t" = some PROBE_ACK := by
  simp [answer, textField, field, Value.asObj, objGet, Value.asStr]

theorem nonceOf_answer : nonceOf config answer = "did:p#1" := by
  simp [answer, nonceOf, field, Value.asObj, objGet, config, builtins, Value.asStr]

theorem decode_any (data : List UInt8) : decode_upgrade config data = some answer := by
  rw [decode_upgrade]
  exact if_pos (answer_t ▸ List.mem_cons_of_mem _ List.mem_cons_self)

theorem ackOf_any (data : List UInt8) : ackOf config data = some "did:p#1" := by
  rw [ackOf, decode_any, Option.bind_some, if_pos answer_t, nonceOf_answer]

theorem probed_eq : probed =
    { start with
      states := (∅ : StrMap _).insert "did:p" { state := .probing, last_seen := some 0 }
      counter := 1
      pending := (∅ : StrMap _).insert "did:p#1" home
      endpoints := (∅ : StrMap _).insert "did:p" home.key
      sent := [⟨"did:p", home.key, some "did:p#1", false⟩] } := by
  have hstate : state_for config start "did:p" = { last_seen := some 0 } := by
    rw [state_for, start, Std.ExtTreeMap.getD_empty]
    rfl
  rw [probed, probe, probeNonce_one, hstate, route]
  simp [start, state_for, UpgradeState.begin_probe, UpgradeState.is_direct]

theorem probed_not_direct (did : String) : (state_for config probed did).is_direct = false := by
  rw [probed_eq, state_for_insert (s := start) rfl rfl]
  split_ifs
  · rfl
  · rw [state_for, start, Std.ExtTreeMap.getD_empty]
    rfl

theorem allMeet_answered : AllMeet config start
    [.probe "did:p" home, .inbound "did:p" home.key true [] (some 1)] := by
  refine ⟨?_, ⟨?_, ?_⟩, trivial⟩
  · intro hdirect
    rw [state_for, show start.states = ∅ from rfl, Std.ExtTreeMap.getD_empty] at hdirect
    cases hdirect
  · intro _ hdirect
    rw [show step config _ (.probe "did:p" home) = probed from rfl, probed_not_direct] at hdirect
    cases hdirect
  · intro nonce e hnonce he
    rw [show step config _ (.probe "did:p" home) = probed from rfl] at he ⊢
    rw [ackOf_any] at hnonce
    cases hnonce
    rw [probed_eq] at he ⊢
    rw [StrMap.get_insert, if_pos rfl] at he
    cases he
    refine ⟨⟨_, List.mem_singleton_self _, rfl, rfl⟩, ?_⟩
    intro _ a ha
    rw [adopt, if_pos (.inl rfl), StrMap.get_insert, if_pos rfl] at ha
    cases ha
    exact .inl rfl

/-- The peer answers its own probe. -/
theorem sound_answered : Sound config (run config start
    [.probe "did:p" home, .inbound "did:p" home.key true [] (some 1)]) :=
  sound_run config ∅ (fun _ => true) (fun _ => true) _ allMeet_answered

/-- Another peer answers it, and is direct at the address of the first. -/
theorem not_sound_stolen : ¬ Sound config (run config start
    [.probe "did:p" home, .inbound "did:q" (.str "203.0.113.9", 6000) true [] (some 1)]) := by
  intro hsound
  have hrun : run config start
      [.probe "did:p" home, .inbound "did:q" (.str "203.0.113.9", 6000) true [] (some 1)] =
      inbound config probed "did:q" (.str "203.0.113.9", 6000) true [] (some 1) := rfl
  have hproven : (inbound config probed "did:q" (.str "203.0.113.9", 6000) true []
      (some 1)).proven = [] := by
    rw [probed_eq, inbound, handle, decode_any]
    simp [answer_t, nonceOf_answer, acked, start, PROBE, PROBE_ACK]
  have hdirect : (state_for config (inbound config probed "did:q" (.str "203.0.113.9", 6000) true []
      (some 1)) "did:q").is_direct = true := by
    rw [probed_eq, inbound, handle, decode_any]
    simp [answer_t, nonceOf_answer, acked, start, PROBE, PROBE_ACK, state_for,
      UpgradeState.on_ack, UpgradeState.is_direct]
  rw [hrun] at hsound
  obtain ⟨e, -, hmem⟩ := hsound.direct "did:q" hdirect
  rw [hproven] at hmem
  cases hmem

end OneProbe

end Upgrader

end Secdogie.Transport
