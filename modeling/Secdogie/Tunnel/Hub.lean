/-
# `Secdogie.Tunnel.Hub` — many tunnels on one socket

The hub keeps a responder for each client and tells them apart by what a
datagram says in the clear: the key that message 1 claims, the session id of a
data datagram.  What makes that safe is that no session id is live twice
(`Apart`), which message 1 cannot break: it is dropped when its id is live in
any slot.  What the hub hands on is then from the client whose address it
carries.
-/
import Secdogie.Tunnel.Responder

namespace Secdogie.Tunnel

/-! ## Slots -/

/-- `sdtp_hub_peer`; an IPv4 address is its four bytes. -/
structure HubPeer where
  static_pk : Bytes
  tunnel_ip : Bytes
  rs : Responder := {}
  last_recv : Nat := 0
  last_send : Nat := 0

/-- `sdtp_hub_config`, as far as the loop reads it. -/
structure Hub where
  my_static : Keypair
  self_ip : Bytes
  peers : List HubPeer

/-- `sdtp_hub_parse_ipv4_src` -/
def parse_ipv4_src (pkt : Bytes) : Option Bytes :=
  if pkt.length < 20 then none
  else if pkt.getD 0 0 >>> 4 ≠ 4 then none
  else some (slice pkt 12 4)

/-- `sdtp_hub_parse_ipv4_dst` -/
def parse_ipv4_dst (pkt : Bytes) : Option Bytes :=
  if pkt.length < 20 then none
  else if pkt.getD 0 0 >>> 4 ≠ 4 then none
  else some (slice pkt 16 4)

/-- `sdtp_hub_find_peer_by_session_id` -/
def find_peer_by_session_id (peers : List HubPeer) (session_id : Bytes) : Option Nat :=
  peers.findIdx? fun p => p.rs.owns session_id

/-- `sdtp_hub_find_peer_by_ip` -/
def find_peer_by_ip (peers : List HubPeer) (ip : Bytes) : Option Nat :=
  peers.findIdx? fun p => p.tunnel_ip == ip

/-- The loop of `sdtp_hub_respond_init` from slot `i` on: the first that
answers.  A slot that comes to draw an ephemeral key draws `r_eph` of it. -/
def respond_slot (S : Sodium) (hub_static : Keypair) (now : Nat) (r_eph : Nat → Bytes)
    (msg1 : Bytes) : Nat → List HubPeer → Option (Nat × Bytes × HubPeer)
  | _, [] => none
  | i, p :: ps =>
      match p.rs.on_init S now (r_eph i) hub_static p.static_pk msg1 with
      | some (msg2, rs) => some (i, msg2, { p with rs })
      | none => respond_slot S hub_static now r_eph msg1 (i + 1) ps

/-- `sdtp_hub_respond_init`: the slot, message 2, and the slots. -/
def respond_init (S : Sodium) (hub_static : Keypair) (now : Nat) (r_eph : Nat → Bytes)
    (msg1 : Bytes) (peers : List HubPeer) : Option (Nat × Bytes × List HubPeer) :=
  if msg1.length ≠ SDTP_MSG1_LEN then none
  else if (find_peer_by_session_id peers (msg1_session_id msg1)).isSome then none
  else
    match respond_slot S hub_static now r_eph msg1 0 peers with
    | none => none
    | some (i, msg2, p) => some (i, msg2, peers.set i p)

/-! ## The loop -/

/-- What the hub sends: an answer, a plaintext to the TUN, a plaintext sealed
for a slot, a keepalive of a slot. -/
inductive Sent
  | answer (dst : Sockaddr) (msg2 : Bytes)
  | tun (pkt : Bytes)
  | forwarded (slot : Nat) (pkt : Bytes) (dst : Sockaddr) (dg : Bytes)
  | keepalive (slot : Nat) (dst : Sockaddr) (dg : Bytes)
deriving DecidableEq

/-- `forward_to_peer` -/
def forward_to_peer (S : Sodium) (slot : Nat) (p : HubPeer) (pkt : Bytes) (now : Nat) :
    HubPeer × List Sent :=
  if p.rs.current.established = false ∨ p.rs.have_addr = false then (p, [])
  else
    match data_encrypt S p.rs.current SDTP_MSG_DATA pkt with
    | none => (p, [])
    | some (dg, s) =>
        ({ p with rs := { p.rs with current := s }, last_send := now },
          [.forwarded slot pkt p.rs.addr dg])

/-- Where a plaintext of slot `idx` goes. -/
def route (S : Sodium) (h : Hub) (idx : Nat) (pkt : Bytes) (now : Nat) : Hub × List Sent :=
  match parse_ipv4_dst pkt with
  | none => (h, [.tun pkt])
  | some dst =>
      if dst = h.self_ip then (h, [.tun pkt])
      else
        match find_peer_by_ip h.peers dst with
        | none => (h, [.tun pkt])
        | some j =>
            if j = idx then (h, [.tun pkt])
            else
              match h.peers[j]? with
              | none => (h, [])
              | some q =>
                  let (q, sent) := forward_to_peer S j q pkt now
                  ({ h with peers := h.peers.set j q }, sent)

/-- A datagram of slot `idx`. -/
def handle_data (S : Sodium) (h : Hub) (idx : Nat) (p : HubPeer) (buf : Bytes) (src : Sockaddr)
    (now : Nat) : Hub × List Sent :=
  match p.rs.on_data S buf src SDTP_MTU with
  | (.drop, _) => (h, [])
  | (reply, rs) =>
      let last_send := match reply with | .promoted _ => 0 | _ => p.last_send
      let p := { p with rs, last_recv := now, last_send }
      let h := { h with peers := h.peers.set idx p }
      let pkt := reply.plaintext.getD []
      if buf.getD 0 0 ≠ SDTP_MSG_DATA ∨ pkt.length = 0 then (h, [])
      else if parse_ipv4_src pkt ≠ some p.tunnel_ip then (h, [])
      else route S h idx pkt now

/-- `hub_handle_datagram`, with the clock in nanoseconds and what the slots
draw. -/
def handle_datagram (S : Sodium) (h : Hub) (buf : Bytes) (src : Sockaddr) (now now_ns : Nat)
    (r_eph : Nat → Bytes) : Hub × List Sent :=
  if buf.length = 0 then (h, [])
  else if buf.getD 0 0 = SDTP_MSG_HANDSHAKE_INIT then
    match respond_init S h.my_static now_ns r_eph buf h.peers with
    | none => (h, [])
    | some (_, msg2, peers) => ({ h with peers }, [.answer src msg2])
  else if buf.getD 0 0 = SDTP_MSG_DATA ∨ buf.getD 0 0 = SDTP_MSG_KEEPALIVE then
    if buf.length < 1 + SDTP_SESSION_ID_LEN then (h, [])
    else
      match find_peer_by_session_id h.peers (datagram_id buf) with
      | none => (h, [])
      | some idx =>
          match h.peers[idx]? with
          | none => (h, [])
          | some p => handle_data S h idx p buf src now
  else (h, [])

/-- The loop's care for a slot: a silent one is reset, a quiet one is kept warm. -/
def tend (S : Sodium) (now slot : Nat) (p : HubPeer) : HubPeer × List Sent :=
  if p.rs.current.established = false then (p, [])
  else if p.last_recv + 3 * SDTP_KEEPALIVE_INTERVAL_S < now then ({ p with rs := p.rs.reset }, [])
  else if p.rs.have_addr ∧ p.last_send + SDTP_KEEPALIVE_INTERVAL_S ≤ now then
    match data_encrypt S p.rs.current SDTP_MSG_KEEPALIVE [] with
    | none => (p, [])
    | some (dg, s) =>
        ({ p with rs := { p.rs with current := s }, last_send := now },
          [.keepalive slot p.rs.addr dg])
  else (p, [])

/-- A packet from the TUN, for the client that owns its destination. -/
def from_tun (S : Sodium) (h : Hub) (pkt : Bytes) (now : Nat) : Hub × List Sent :=
  match parse_ipv4_dst pkt with
  | none => (h, [])
  | some dst =>
      match find_peer_by_ip h.peers dst with
      | none => (h, [])
      | some j =>
          match h.peers[j]? with
          | none => (h, [])
          | some q =>
              let (q, sent) := forward_to_peer S j q pkt now
              ({ h with peers := h.peers.set j q }, sent)

/-- What the loop does on a turn: it tends a slot, takes a packet from the TUN,
or handles a datagram.  A responder may also be reset by itself. -/
inductive Hub.Event
  | tend (slot now : Nat)
  | reset (slot : Nat)
  | tun (pkt : Bytes) (now : Nat)
  | datagram (buf : Bytes) (src : Sockaddr) (now now_ns : Nat) (r_eph : Nat → Bytes)

def Hub.step (S : Sodium) (h : Hub) : Hub.Event → Hub × List Sent
  | .tend slot now =>
      match h.peers[slot]? with
      | none => (h, [])
      | some p =>
          let (p, sent) := Secdogie.Tunnel.tend S now slot p
          ({ h with peers := h.peers.set slot p }, sent)
  | .reset slot =>
      ({ h with peers := h.peers.modify slot fun p => { p with rs := p.rs.reset } }, [])
  | .tun pkt now => from_tun S h pkt now
  | .datagram buf src now now_ns r_eph => handle_datagram S h buf src now now_ns r_eph

/-! ## What becomes of a slot -/

/-- The slot keeps its client, and no session id comes to it. -/
structure Kept (p p' : HubPeer) : Prop where
  static_pk : p'.static_pk = p.static_pk
  tunnel_ip : p'.tunnel_ip = p.tunnel_ip
  parked : Parked p.rs → Parked p'.rs
  ids : ∀ id, p'.rs.owns id = true → p.rs.owns id = true

theorem kept_refl (p : HubPeer) : Kept p p := ⟨rfl, rfl, id, fun _ h => h⟩

theorem kept_trans {p q r : HubPeer} (h : Kept p q) (h' : Kept q r) : Kept p r where
  static_pk := h'.static_pk.trans h.static_pk
  tunnel_ip := h'.tunnel_ip.trans h.tunnel_ip
  parked hp := h'.parked (h.parked hp)
  ids id hid := h.ids id (h'.ids id hid)

variable {S : Sodium}

theorem owns_iff {r : Responder} {id : Bytes} : r.owns id = true ↔
    (r.current.established = true ∧ id = r.current.session_id) ∨
      (r.has_pending = true ∧ id = r.pending.session_id) := by
  rw [Responder.owns, Bool.or_eq_true, Bool.and_eq_true, Bool.and_eq_true, beq_iff_eq, beq_iff_eq]

theorem parked_call {C : Config} {r : Responder} (c : Call) (h : Parked r) :
    Parked (call S C r c).2 :=
  parked_step (step_cases S C ⟨r, []⟩ c) h

theorem kept_on_data (p : HubPeer) (buf : Bytes) (src : Sockaddr) (last_recv last_send : Nat) :
    Kept p { p with
      rs := (p.rs.on_data S buf src SDTP_MTU).2, last_recv := last_recv, last_send := last_send } where
  static_pk := rfl
  tunnel_ip := rfl
  parked h := parked_call (C := ⟨⟨[], []⟩, []⟩) (.on_data buf src SDTP_MTU) h
  ids id hid := by
    dsimp only at hid
    have hcases := Responder.on_data_cases S p.rs buf src SDTP_MTU
    generalize p.rs.on_data S buf src SDTP_MTU = result at hcases hid
    cases hcases with
    | drop => exact hid
    | ok hlive haccepted =>
        rw [owns_iff] at hid ⊢
        rcases hid with ⟨-, hid⟩ | hid
        · refine .inl ⟨hlive, hid.trans ?_⟩
          rw [haccepted.session]
        · exact .inr hid
    | promoted hlive haccepted =>
        rw [owns_iff] at hid ⊢
        rcases hid with ⟨-, hid⟩ | ⟨hfalse, -⟩
        · refine .inr ⟨hlive, hid.trans ?_⟩
          rw [haccepted.session]
        · exact (Bool.false_ne_true hfalse).elim

theorem kept_reset (p : HubPeer) : Kept p { p with rs := p.rs.reset } where
  static_pk := rfl
  tunnel_ip := rfl
  parked h := parked_call (S := .sample) (C := ⟨⟨[], []⟩, []⟩) .reset h
  ids id hid := by
    rcases owns_iff.mp hid with ⟨hfalse, -⟩ | ⟨hfalse, -⟩
    · exact (Bool.false_ne_true hfalse).elim
    · exact (Bool.false_ne_true hfalse).elim

/-- Sealing for a client counts, and changes nothing else of its session. -/
theorem kept_encrypt (p : HubPeer) {type : UInt8} {pt dg : Bytes} {s : Session}
    (h : data_encrypt S p.rs.current type pt = some (dg, s)) (last_send : Nat) :
    Kept p { p with rs := { p.rs with current := s }, last_send := last_send } := by
  obtain ⟨-, rfl, -⟩ := data_encrypt_some h
  exact ⟨rfl, rfl, fun h => ⟨h.newer, h.apart⟩, fun id hid => hid⟩

theorem kept_forward (slot : Nat) (p : HubPeer) (pkt : Bytes) (now : Nat) :
    Kept p (forward_to_peer S slot p pkt now).1 := by
  rw [forward_to_peer]
  split_ifs
  · exact kept_refl p
  · cases hencrypt : data_encrypt S p.rs.current SDTP_MSG_DATA pkt with
    | none => exact kept_refl p
    | some sealed => exact kept_encrypt p hencrypt now

theorem kept_tend (now slot : Nat) (p : HubPeer) : Kept p (tend S now slot p).1 := by
  rw [tend]
  split_ifs
  · exact kept_refl p
  · exact kept_reset p
  · cases hencrypt : data_encrypt S p.rs.current SDTP_MSG_KEEPALIVE [] with
    | none => exact kept_refl p
    | some sealed => exact kept_encrypt p hencrypt now
  · exact kept_refl p

/-- Every slot is kept. -/
def AllKept (ps ps' : List HubPeer) : Prop :=
  ∀ (i : Nat) (p' : HubPeer), ps'[i]? = some p' → ∃ p, ps[i]? = some p ∧ Kept p p'

theorem allKept_refl (ps : List HubPeer) : AllKept ps ps := fun _ p' h => ⟨p', h, kept_refl p'⟩

theorem allKept_trans {ps qs rs : List HubPeer} (h : AllKept ps qs) (h' : AllKept qs rs) :
    AllKept ps rs := by
  intro i r hr
  obtain ⟨q, hq, hqr⟩ := h' i r hr
  obtain ⟨p, hp, hpq⟩ := h i q hq
  exact ⟨p, hp, kept_trans hpq hqr⟩

theorem allKept_set {ps : List HubPeer} {i : Nat} {p p' : HubPeer} (hp : ps[i]? = some p)
    (h : Kept p p') : AllKept ps (ps.set i p') := by
  intro j q hq
  rw [List.getElem?_set] at hq
  split_ifs at hq with hij hlen
  · obtain rfl := Option.some.inj hq
    exact ⟨p, hij ▸ hp, h⟩
  · exact ⟨q, hq, kept_refl q⟩

/-! ## No session id is live twice -/

structure Apart (ps : List HubPeer) : Prop where
  parked : ∀ p ∈ ps, Parked p.rs
  owner : ∀ (i j : Nat) (p q : HubPeer) (id : Bytes), ps[i]? = some p → ps[j]? = some q →
    p.rs.owns id = true → q.rs.owns id = true → i = j
  keys : ∀ (i j : Nat) (p q : HubPeer), ps[i]? = some p → ps[j]? = some q →
    p.static_pk = q.static_pk → i = j

theorem apart_allKept {ps ps' : List HubPeer} (h : AllKept ps ps') (ha : Apart ps) :
    Apart ps' where
  parked p' hp' := by
    obtain ⟨i, hi⟩ := List.mem_iff_getElem?.mp hp'
    obtain ⟨p, hp, hkept⟩ := h i p' hi
    exact hkept.parked (ha.parked p (List.mem_of_getElem? hp))
  owner i j p' q' id hi hj hpid hqid := by
    obtain ⟨p, hp, hpk⟩ := h i p' hi
    obtain ⟨q, hq, hqk⟩ := h j q' hj
    exact ha.owner i j p q id hp hq (hpk.ids id hpid) (hqk.ids id hqid)
  keys i j p' q' hi hj hkey := by
    obtain ⟨p, hp, hpk⟩ := h i p' hi
    obtain ⟨q, hq, hqk⟩ := h j q' hj
    exact ha.keys i j p q hp hq (hpk.static_pk.symm.trans (hkey.trans hqk.static_pk))

/-- What answering message 1 does to its slot. -/
structure Answered (S : Sodium) (hub_static : Keypair) (msg1 : Bytes) (ps : List HubPeer)
    (i : Nat) (p p' : HubPeer) : Prop where
  slot : ps[i]? = some p
  claimed : msg1_static_pk msg1 = p.static_pk
  unowned : ∀ q ∈ ps, q.rs.owns (msg1_session_id msg1) = false
  parked : Parked p.rs → Parked p'.rs
  pending : p' = { p with
    rs := { p.rs with
      pending := p'.rs.pending, pending_ts := p'.rs.pending_ts, has_pending := true } }
  session_id : p'.rs.pending.session_id = msg1_session_id msg1

theorem respond_slot_some {hub_static : Keypair} {now : Nat} {r_eph : Nat → Bytes}
    {msg1 msg2 : Bytes} {k i : Nat} {ps : List HubPeer} {p' : HubPeer}
    (h : respond_slot S hub_static now r_eph msg1 k ps = some (i, msg2, p')) :
    ∃ n p rs, i = k + n ∧ ps[n]? = some p ∧
      p.rs.on_init S now (r_eph i) hub_static p.static_pk msg1 = some (msg2, rs) ∧
      p' = { p with rs } := by
  induction ps generalizing k with
  | nil => cases h
  | cons p ps ih =>
      rw [respond_slot] at h
      cases hinit : p.rs.on_init S now (r_eph k) hub_static p.static_pk msg1 with
      | some answer =>
          rw [hinit] at h
          obtain ⟨rfl, hrest⟩ := Prod.mk.inj (Option.some.inj h)
          obtain ⟨rfl, rfl⟩ := Prod.mk.inj hrest
          exact ⟨0, p, answer.2, rfl, rfl, hinit, rfl⟩
      | none =>
          rw [hinit] at h
          obtain ⟨n, q, rs, rfl, hq, hanswer, hp'⟩ := ih h
          exact ⟨n + 1, q, rs, by omega, hq, hanswer, hp'⟩

theorem respond_init_some {hub_static : Keypair} {now : Nat} {r_eph : Nat → Bytes}
    {msg1 msg2 : Bytes} {i : Nat} {ps ps' : List HubPeer}
    (h : respond_init S hub_static now r_eph msg1 ps = some (i, msg2, ps')) :
    ∃ p p', Answered S hub_static msg1 ps i p p' ∧ ps' = ps.set i p' := by
  rw [respond_init] at h
  split_ifs at h with hlen hlive
  cases hslot : respond_slot S hub_static now r_eph msg1 0 ps with
  | none => rw [hslot] at h; cases h
  | some answer =>
      obtain ⟨j, answer, p'⟩ := answer
      rw [hslot] at h
      obtain ⟨rfl, hrest⟩ := Prod.mk.inj (Option.some.inj h)
      obtain ⟨rfl, rfl⟩ := Prod.mk.inj hrest
      obtain ⟨n, p, rs, hn, hp, hinit, rfl⟩ := respond_slot_some hslot
      obtain rfl : j = n := by omega
      obtain ⟨howns, ts, fresh, secrets, hresponded, rfl⟩ := Responder.on_init_some hinit
      refine ⟨p, _, ⟨hp, hresponded.claimed, ?_, fun hparked => ?_, rfl, ?_⟩, rfl⟩
      · rw [find_peer_by_session_id, Option.not_isSome_iff_eq_none, List.findIdx?_eq_none_iff]
          at hlive
        exact hlive
      · have hstep : Step S ⟨hub_static, p.static_pk⟩ ⟨p.rs, []⟩ (.on_init now (r_eph j) msg1) _ :=
          .park howns hresponded
        exact parked_step hstep hparked
      · dsimp only
        rw [hresponded.parked]
        rfl

theorem apart_answered {hub_static : Keypair} {msg1 : Bytes} {ps : List HubPeer} {i : Nat}
    {p p' : HubPeer} (h : Answered S hub_static msg1 ps i p p') (ha : Apart ps) :
    Apart (ps.set i p') := by
  -- what the slots own afterwards: what they did, and one slot the new id
  have hslots : ∀ (j : Nat) (q : HubPeer), (ps.set i p')[j]? = some q → (∃ q₀, ps[j]? = some q₀ ∧
      q.static_pk = q₀.static_pk ∧ (Parked q₀.rs → Parked q.rs) ∧ ∀ id, q.rs.owns id = true →
        (j = i ∧ id = msg1_session_id msg1) ∨ q₀.rs.owns id = true) := by
    intro j q hq
    rw [List.getElem?_set] at hq
    split_ifs at hq with hij hlen
    · obtain rfl := Option.some.inj hq
      refine ⟨p, hij ▸ h.slot, by rw [h.pending], h.parked, fun id hid => ?_⟩
      rcases owns_iff.mp hid with ⟨hlive, hid⟩ | ⟨-, hid⟩
      · rw [h.pending] at hlive hid
        exact .inr (owns_iff.mpr (.inl ⟨hlive, hid⟩))
      · exact .inl ⟨hij.symm, hid.trans h.session_id⟩
    · exact ⟨q, hq, rfl, id, fun id hid => .inr hid⟩
  have hnew : ∀ (j : Nat) (q : HubPeer), ps[j]? = some q → q.rs.owns (msg1_session_id msg1) ≠ true :=
    fun j q hq howns => Bool.false_ne_true
      ((h.unowned q (List.mem_of_getElem? hq)).symm.trans howns)
  refine ⟨fun q hq => ?_, fun j k q r id hj hk hqid hrid => ?_, fun j k q r hj hk hkey => ?_⟩
  · obtain ⟨j, hj⟩ := List.mem_iff_getElem?.mp hq
    obtain ⟨q₀, hq₀, -, hparked, -⟩ := hslots j q hj
    exact hparked (ha.parked q₀ (List.mem_of_getElem? hq₀))
  · obtain ⟨q₀, hq₀, -, -, hqids⟩ := hslots j q hj
    obtain ⟨r₀, hr₀, -, -, hrids⟩ := hslots k r hk
    rcases hqids id hqid with ⟨rfl, rfl⟩ | hqid
    · rcases hrids _ hrid with ⟨rfl, -⟩ | hrid
      · rfl
      · exact absurd hrid (hnew k r₀ hr₀)
    · rcases hrids id hrid with ⟨rfl, rfl⟩ | hrid
      · exact absurd hqid (hnew j q₀ hq₀)
      · exact ha.owner j k q₀ r₀ id hq₀ hr₀ hqid hrid
  · obtain ⟨q₀, hq₀, hqkey, -⟩ := hslots j q hj
    obtain ⟨r₀, hr₀, hrkey, -⟩ := hslots k r hk
    exact ha.keys j k q₀ r₀ hq₀ hr₀ (hqkey.symm.trans (hkey.trans hrkey))

/-! ## Every event -/

theorem allKept_forward (h : Hub) (j : Nat) (q : HubPeer) (hq : h.peers[j]? = some q) (pkt : Bytes)
    (now : Nat) : AllKept h.peers (h.peers.set j (forward_to_peer S j q pkt now).1) :=
  allKept_set hq (kept_forward j q pkt now)

theorem allKept_route (h : Hub) (idx : Nat) (pkt : Bytes) (now : Nat) :
    AllKept h.peers (route S h idx pkt now).1.peers := by
  rw [route]
  cases parse_ipv4_dst pkt with
  | none => exact allKept_refl _
  | some dst =>
      dsimp only
      by_cases hself : dst = h.self_ip
      · rw [if_pos hself]
        exact allKept_refl _
      · rw [if_neg hself]
        cases find_peer_by_ip h.peers dst with
        | none => exact allKept_refl _
        | some j =>
            dsimp only
            by_cases hj : j = idx
            · rw [if_pos hj]
              exact allKept_refl _
            · rw [if_neg hj]
              cases hq : h.peers[j]? with
              | none => exact allKept_refl _
              | some q => exact allKept_forward h j q hq pkt now

theorem allKept_from_tun (h : Hub) (pkt : Bytes) (now : Nat) :
    AllKept h.peers (from_tun S h pkt now).1.peers := by
  rw [from_tun]
  cases parse_ipv4_dst pkt with
  | none => exact allKept_refl _
  | some dst =>
      dsimp only
      cases find_peer_by_ip h.peers dst with
      | none => exact allKept_refl _
      | some j =>
          dsimp only
          cases hq : h.peers[j]? with
          | none => exact allKept_refl _
          | some q => exact allKept_forward h j q hq pkt now

/-- What is left of a datagram once it is accepted. -/
def after_reply (S : Sodium) (h : Hub) (idx : Nat) (p : HubPeer) (buf : Bytes) (reply : Reply)
    (rs : Responder) (now last_send : Nat) : Hub × List Sent :=
  let p := { p with rs, last_recv := now, last_send }
  let h := { h with peers := h.peers.set idx p }
  let pkt := reply.plaintext.getD []
  if buf.getD 0 0 ≠ SDTP_MSG_DATA ∨ pkt.length = 0 then (h, [])
  else if parse_ipv4_src pkt ≠ some p.tunnel_ip then (h, [])
  else route S h idx pkt now

theorem handle_data_eq (h : Hub) (idx : Nat) (p : HubPeer) (buf : Bytes) (src : Sockaddr)
    (now : Nat) : handle_data S h idx p buf src now =
      match p.rs.on_data S buf src SDTP_MTU with
      | (.drop, _) => (h, [])
      | (.ok pt, rs) => after_reply S h idx p buf (.ok pt) rs now p.last_send
      | (.promoted pt, rs) => after_reply S h idx p buf (.promoted pt) rs now 0 := by
  rw [handle_data]
  cases p.rs.on_data S buf src SDTP_MTU with
  | mk reply rs =>
      cases reply with
      | drop => rfl
      | ok pt => rfl
      | promoted pt => rfl

theorem allKept_after_reply (h : Hub) {idx : Nat} {p : HubPeer} (hp : h.peers[idx]? = some p)
    (buf : Bytes) (src : Sockaddr) (reply : Reply) (now last_send : Nat) :
    AllKept h.peers
      (after_reply S h idx p buf reply (p.rs.on_data S buf src SDTP_MTU).2 now
        last_send).1.peers := by
  have hset := allKept_set hp (kept_on_data (S := S) p buf src now last_send)
  rw [after_reply]
  dsimp only
  split_ifs
  · exact hset
  · exact hset
  · exact allKept_trans hset (allKept_route _ _ _ _)

theorem allKept_handle_data (h : Hub) {idx : Nat} {p : HubPeer} (hp : h.peers[idx]? = some p)
    (buf : Bytes) (src : Sockaddr) (now : Nat) :
    AllKept h.peers (handle_data S h idx p buf src now).1.peers := by
  have hkept := fun reply last_send =>
    allKept_after_reply (S := S) h hp buf src reply now last_send
  rw [handle_data_eq]
  cases hdata : p.rs.on_data S buf src SDTP_MTU with
  | mk reply rs =>
      rw [hdata] at hkept
      cases reply with
      | drop => exact allKept_refl _
      | ok pt => exact hkept _ _
      | promoted pt => exact hkept _ _

theorem apart_handle_datagram {h : Hub} (ha : Apart h.peers) (buf : Bytes) (src : Sockaddr)
    (now now_ns : Nat) (r_eph : Nat → Bytes) :
    Apart (handle_datagram S h buf src now now_ns r_eph).1.peers := by
  rw [handle_datagram]
  split_ifs
  · exact ha
  · cases hinit : respond_init S h.my_static now_ns r_eph buf h.peers with
    | none => exact ha
    | some answer =>
        obtain ⟨i, msg2, peers⟩ := answer
        obtain ⟨p, p', hanswered, rfl⟩ := respond_init_some hinit
        exact apart_answered hanswered ha
  · exact ha
  · cases find_peer_by_session_id h.peers (datagram_id buf) with
    | none => exact ha
    | some idx =>
        dsimp only
        cases hp : h.peers[idx]? with
        | none => exact ha
        | some p => exact apart_allKept (allKept_handle_data h hp buf src now) ha
  · exact ha

theorem apart_step {h : Hub} (ha : Apart h.peers) (e : Hub.Event) :
    Apart (h.step S e).1.peers := by
  cases e with
  | tend slot now =>
      rw [Hub.step]
      cases hp : h.peers[slot]? with
      | none => exact ha
      | some p => exact apart_allKept (allKept_set hp (kept_tend now slot p)) ha
  | reset slot =>
      refine apart_allKept (fun i p' hp' => ?_) ha
      rw [Hub.step, List.getElem?_modify] at hp'
      obtain ⟨p, hp, rfl⟩ := Option.map_eq_some_iff.mp hp'
      split_ifs
      · exact ⟨p, hp, kept_reset p⟩
      · exact ⟨p, hp, kept_refl p⟩
  | tun pkt now => exact apart_allKept (allKept_from_tun h pkt now) ha
  | datagram buf src now now_ns r_eph => exact apart_handle_datagram ha buf src now now_ns r_eph

/-- The hub after some events. -/
def Hub.after (S : Sodium) (h : Hub) (events : List Hub.Event) : Hub :=
  events.foldl (fun h e => (h.step S e).1) h

/-- A hub that starts: no slot has a session, and no two have one client's key. -/
structure Hub.Initial (h : Hub) : Prop where
  fresh : ∀ p ∈ h.peers, p.rs = {}
  keys : h.peers.Pairwise fun p q => p.static_pk ≠ q.static_pk

theorem apart_initial {h : Hub} (hinit : h.Initial) : Apart h.peers where
  parked p hp := by
    rw [hinit.fresh p hp]
    exact parked_initial
  owner i j p q id hi hj hid := by
    rw [hinit.fresh p (List.mem_of_getElem? hi)] at hid
    rcases owns_iff.mp hid with ⟨hfalse, -⟩ | ⟨hfalse, -⟩
    · exact (Bool.false_ne_true hfalse).elim
    · exact (Bool.false_ne_true hfalse).elim
  keys i j p q hi hj hkey := by
    obtain ⟨hilt, rfl⟩ := List.getElem?_eq_some_iff.mp hi
    obtain ⟨hjlt, rfl⟩ := List.getElem?_eq_some_iff.mp hj
    have hapart := List.pairwise_iff_getElem.mp hinit.keys
    rcases Nat.lt_trichotomy i j with hlt | rfl | hlt
    · exact absurd hkey (hapart i j hilt hjlt hlt)
    · rfl
    · exact absurd hkey.symm (hapart j i hjlt hilt hlt)

theorem apart_after {h : Hub} (hinit : h.Initial) (events : List Hub.Event) :
    Apart (h.after S events).peers := by
  have hfold : ∀ (events : List Hub.Event) (h : Hub), Apart h.peers →
      Apart (h.after S events).peers := fun events => by
    induction events with
    | nil => exact fun h ha => ha
    | cons e events ih => exact fun h ha => ih _ (apart_step ha e)
  exact hfold events h (apart_initial hinit)

/-! ## Live session ids -/

def Responder.live_ids (r : Responder) : List Bytes :=
  (if r.current.established then [r.current.session_id] else []) ++
    (if r.has_pending then [r.pending.session_id] else [])

theorem mem_live_ids {r : Responder} {id : Bytes} : id ∈ r.live_ids ↔ r.owns id = true := by
  rw [owns_iff, Responder.live_ids, List.mem_append]
  refine or_congr ?_ ?_
  · cases r.current.established with
    | true => simp
    | false => simp
  · cases r.has_pending with
    | true => simp
    | false => simp

theorem nodup_live_ids {r : Responder} (h : Parked r) : r.live_ids.Nodup := by
  rw [Responder.live_ids]
  cases hlive : r.current.established with
  | false =>
      cases r.has_pending with
      | true => exact List.nodup_singleton _
      | false => exact List.nodup_nil
  | true =>
      cases hpending : r.has_pending with
      | true =>
          refine List.nodup_cons.mpr ⟨fun hmem => ?_, List.nodup_singleton _⟩
          exact h.apart hpending hlive (List.mem_singleton.mp hmem).symm
      | false => exact List.nodup_singleton _

theorem nodup_all_live_ids {ps : List HubPeer} (h : Apart ps) :
    (ps.flatMap fun p => p.rs.live_ids).Nodup := by
  refine List.nodup_flatMap.mpr ⟨fun p hp => nodup_live_ids (h.parked p hp), ?_⟩
  refine List.pairwise_iff_getElem.mpr fun i j hi hj hlt => ?_
  intro id hid hid'
  have heq := h.owner i j _ _ id (List.getElem?_eq_getElem hi) (List.getElem?_eq_getElem hj)
    (mem_live_ids.mp hid) (mem_live_ids.mp hid')
  omega

/-! ## Message 1 -/

/-- At most the parked session of the one slot with the claimed key is new. -/
def OnlyParks (h h' : Hub) (claimed : Bytes) : Prop :=
  h' = h ∨ ∃ (i : Nat) (p : HubPeer) (fresh : Session) (ts : Nat),
    h.peers[i]? = some p ∧ p.static_pk = claimed ∧
    (∀ (j : Nat) (q : HubPeer), h.peers[j]? = some q → q.static_pk = claimed → j = i) ∧
    h' = { h with peers := (h.peers.set i
      { p with rs := { p.rs with pending := fresh, pending_ts := ts, has_pending := true } }) }

theorem onlyParks_init {h : Hub} (ha : Apart h.peers) {buf : Bytes}
    (hbuf : buf.getD 0 0 = SDTP_MSG_HANDSHAKE_INIT) (src : Sockaddr) (now now_ns : Nat)
    (r_eph : Nat → Bytes) :
    OnlyParks h (handle_datagram S h buf src now now_ns r_eph).1 (msg1_static_pk buf) := by
  rw [handle_datagram, if_pos hbuf]
  by_cases hlen : buf.length = 0
  · rw [if_pos hlen]
    exact .inl rfl
  · rw [if_neg hlen]
    cases hinit : respond_init S h.my_static now_ns r_eph buf h.peers with
    | none => exact .inl rfl
    | some answer =>
        obtain ⟨i, msg2, peers⟩ := answer
        obtain ⟨p, p', hanswered, rfl⟩ := respond_init_some hinit
        refine .inr ⟨i, p, p'.rs.pending, p'.rs.pending_ts, hanswered.slot,
          hanswered.claimed.symm, fun j q hq hkey => ?_, ?_⟩
        · exact ha.keys j i q p hq hanswered.slot (hkey.trans hanswered.claimed)
        · dsimp only
          rw [← hanswered.pending]

/-! ## Where a plaintext comes from, and where it goes -/

/-- The plaintext that is handed on. -/
def Sent.plaintext : Sent → Option Bytes
  | .tun pkt => some pkt
  | .forwarded _ pkt _ _ => some pkt
  | _ => none

/-- The plaintext is of a datagram that opened under a live session of slot
`i`, which alone has its id, and it is an IPv4 packet from the slot's client. -/
structure Sender (S : Sodium) (h : Hub) (buf pkt : Bytes) (i : Nat) (p : HubPeer) : Prop where
  slot : h.peers[i]? = some p
  owns : p.rs.owns (datagram_id buf) = true
  alone : ∀ (j : Nat) (q : HubPeer), h.peers[j]? = some q →
    q.rs.owns (datagram_id buf) = true → j = i
  opened : ∃ s, (s = p.rs.current ∧ p.rs.current.established = true ∨
      s = p.rs.pending ∧ p.rs.has_pending = true) ∧
    s.session_id = datagram_id buf ∧ data_open S s.recv_key buf = some pkt
  length : 20 ≤ pkt.length
  version : pkt.getD 0 0 >>> 4 = 4
  source : slice pkt 12 4 = p.tunnel_ip

/-- The plaintext is sealed as a datagram of the live session of another slot. -/
structure Recipient (S : Sodium) (h : Hub) (pkt : Bytes) (j : Nat) (dst : Sockaddr) (dg : Bytes) :
    Prop where
  sealed : ∃ q s, h.peers[j]? = some q ∧ q.rs.current.established = true ∧ dst = q.rs.addr ∧
    data_encrypt S q.rs.current SDTP_MSG_DATA pkt = some (dg, s)

/-- What is sent on for a plaintext from slot `idx`. -/
structure Routed (S : Sodium) (h : Hub) (idx : Nat) (pkt : Bytes) (sent : List Sent) : Prop where
  once : sent.length ≤ 1
  place : ∀ x ∈ sent, x = .tun pkt ∨ ∃ j dst dg, j ≠ idx ∧ x = .forwarded j pkt dst dg ∧
    Recipient S h pkt j dst dg

theorem routed_nil (h : Hub) (idx : Nat) (pkt : Bytes) : Routed S h idx pkt [] :=
  ⟨Nat.zero_le 1, fun _ hx => (List.not_mem_nil hx).elim⟩

theorem routed_tun (h : Hub) (idx : Nat) (pkt : Bytes) : Routed S h idx pkt [.tun pkt] :=
  ⟨le_rfl, fun _ hx => .inl (List.mem_singleton.mp hx)⟩

theorem routed_forward {h : Hub} {idx j : Nat} {q : HubPeer} (hj : j ≠ idx)
    (hq : h.peers[j]? = some q) (pkt : Bytes) (now : Nat) :
    Routed S h idx pkt (forward_to_peer S j q pkt now).2 := by
  rw [forward_to_peer]
  by_cases hlive : q.rs.current.established = false ∨ q.rs.have_addr = false
  · rw [if_pos hlive]
    exact routed_nil h idx pkt
  · rw [if_neg hlive]
    cases hencrypt : data_encrypt S q.rs.current SDTP_MSG_DATA pkt with
    | none => exact routed_nil h idx pkt
    | some sealed =>
        obtain ⟨dg, s⟩ := sealed
        refine ⟨le_rfl, fun x hx => .inr ⟨j, q.rs.addr, dg, hj, List.mem_singleton.mp hx, ?_⟩⟩
        exact ⟨q, s, hq, Bool.eq_true_of_not_eq_false fun hf => hlive (.inl hf), rfl, hencrypt⟩

theorem routed_route (h : Hub) (idx : Nat) (pkt : Bytes) (now : Nat) :
    Routed S h idx pkt (route S h idx pkt now).2 := by
  rw [route]
  cases parse_ipv4_dst pkt with
  | none => exact routed_tun h idx pkt
  | some dst =>
      dsimp only
      by_cases hself : dst = h.self_ip
      · rw [if_pos hself]
        exact routed_tun h idx pkt
      · rw [if_neg hself]
        cases find_peer_by_ip h.peers dst with
        | none => exact routed_tun h idx pkt
        | some j =>
            dsimp only
            by_cases hj : j = idx
            · rw [if_pos hj]
              exact routed_tun h idx pkt
            · rw [if_neg hj]
              cases hq : h.peers[j]? with
              | none => exact routed_nil h idx pkt
              | some q => exact routed_forward hj hq pkt now

/-- The other slots are what they were. -/
theorem routed_of_set {h : Hub} {idx : Nat} {p : HubPeer} {pkt : Bytes} {sent : List Sent}
    (hr : Routed S { h with peers := h.peers.set idx p } idx pkt sent) :
    Routed S h idx pkt sent := by
  refine ⟨hr.once, fun x hx => ?_⟩
  rcases hr.place x hx with htun | ⟨j, dst, dg, hj, rfl, q, s, hq, hrest⟩
  · exact .inl htun
  · rw [List.getElem?_set_ne (Ne.symm hj)] at hq
    exact .inr ⟨j, dst, dg, hj, rfl, q, s, hq, hrest⟩

theorem parse_ipv4_src_some {pkt ip : Bytes} (h : parse_ipv4_src pkt = some ip) :
    20 ≤ pkt.length ∧ pkt.getD 0 0 >>> 4 = 4 ∧ slice pkt 12 4 = ip := by
  rw [parse_ipv4_src] at h
  split_ifs at h with hlen hversion
  exact ⟨Nat.le_of_not_lt hlen, of_not_not hversion, Option.some.inj h⟩

/-- All that a datagram has the hub send. -/
inductive Handled (S : Sodium) (h : Hub) (buf : Bytes) (src : Sockaddr) : List Sent → Prop
  | nothing : Handled S h buf src []
  | answered {msg2 : Bytes} : buf.getD 0 0 = SDTP_MSG_HANDSHAKE_INIT →
      Handled S h buf src [.answer src msg2]
  | delivered {i : Nat} {p : HubPeer} {pkt : Bytes} {sent : List Sent} :
      Sender S h buf pkt i p → Routed S h i pkt sent → Handled S h buf src sent

theorem handled_after_reply {h : Hub} {idx : Nat} {p : HubPeer} {buf : Bytes} {src : Sockaddr}
    {reply : Reply} {rs : Responder} {now last_send : Nat}
    (hsender : ∀ pkt, reply.plaintext = some pkt → parse_ipv4_src pkt = some p.tunnel_ip →
      Sender S h buf pkt idx p) :
    Handled S h buf src (after_reply S h idx p buf reply rs now last_send).2 := by
  rw [after_reply]
  dsimp only
  split_ifs with hdata hsource
  · exact .nothing
  · exact .nothing
  · have hsource := of_not_not hsource
    cases hplain : reply.plaintext with
    | none =>
        rw [hplain] at hsource
        cases hsource
    | some pkt =>
        rw [hplain] at hsource
        exact .delivered (hsender pkt hplain hsource) (routed_of_set (routed_route _ _ _ _))

theorem handled_data {h : Hub} (ha : Apart h.peers) {idx : Nat} {p : HubPeer}
    (hp : h.peers[idx]? = some p) {buf : Bytes} (howns : p.rs.owns (datagram_id buf) = true)
    (src : Sockaddr) (now : Nat) :
    Handled S h buf src (handle_data S h idx p buf src now).2 := by
  have hsender : ∀ pkt s, (s = p.rs.current ∧ p.rs.current.established = true ∨
      s = p.rs.pending ∧ p.rs.has_pending = true) → s.session_id = datagram_id buf →
      data_open S s.recv_key buf = some pkt → parse_ipv4_src pkt = some p.tunnel_ip →
      Sender S h buf pkt idx p := fun pkt s hs hid hopen hsource => by
    obtain ⟨hlen, hversion, hslice⟩ := parse_ipv4_src_some hsource
    exact ⟨hp, howns, fun j q hq hqowns => ha.owner j idx q p _ hq hp hqowns howns,
      ⟨s, hs, hid, hopen⟩, hlen, hversion, hslice⟩
  rw [handle_data_eq]
  have hcases := Responder.on_data_cases S p.rs buf src SDTP_MTU
  generalize p.rs.on_data S buf src SDTP_MTU = result at hcases ⊢
  cases hcases with
  | drop => exact .nothing
  | ok hlive haccepted =>
      refine handled_after_reply fun pkt hpkt hsource => ?_
      obtain rfl := Option.some.inj hpkt
      exact hsender _ _ (.inl ⟨rfl, hlive⟩) haccepted.session_id.symm haccepted.opened hsource
  | promoted hlive haccepted =>
      refine handled_after_reply fun pkt hpkt hsource => ?_
      obtain rfl := Option.some.inj hpkt
      exact hsender _ _ (.inr ⟨rfl, hlive⟩) haccepted.session_id.symm haccepted.opened hsource

theorem handled_datagram {h : Hub} (ha : Apart h.peers) (buf : Bytes) (src : Sockaddr)
    (now now_ns : Nat) (r_eph : Nat → Bytes) :
    Handled S h buf src (handle_datagram S h buf src now now_ns r_eph).2 := by
  rw [handle_datagram]
  split_ifs with hempty hinit hdata hlen
  · exact .nothing
  · cases respond_init S h.my_static now_ns r_eph buf h.peers with
    | none => exact .nothing
    | some answer => exact .answered hinit
  · exact .nothing
  · cases hfind : find_peer_by_session_id h.peers (datagram_id buf) with
    | none => exact .nothing
    | some idx =>
        dsimp only
        obtain ⟨hidx, howns, -⟩ := List.findIdx?_eq_some_iff_getElem.mp hfind
        rw [List.getElem?_eq_getElem hidx]
        exact handled_data ha (List.getElem?_eq_getElem hidx) howns src now
  · exact .nothing

/-! ## Isolation -/

/-- After any events: no session id is live twice; message 1 parks a session in
the slot of the key it claims, at most; and a plaintext that is handed on is of
a datagram of the one slot with its session id, carries that slot's address,
and goes to one place. -/
theorem hub_isolation (S : Sodium) {h₀ : Hub} (hinit : h₀.Initial) (events : List Hub.Event)
    (buf : Bytes) (src : Sockaddr) (now now_ns : Nat) (r_eph : Nat → Bytes) :
    ((h₀.after S events).peers.flatMap fun p => p.rs.live_ids).Nodup ∧
    (buf.getD 0 0 = SDTP_MSG_HANDSHAKE_INIT →
      OnlyParks (h₀.after S events)
        (handle_datagram S (h₀.after S events) buf src now now_ns r_eph).1 (msg1_static_pk buf)) ∧
    (∀ x ∈ (handle_datagram S (h₀.after S events) buf src now now_ns r_eph).2, ∀ pkt,
      x.plaintext = some pkt →
        (handle_datagram S (h₀.after S events) buf src now now_ns r_eph).2 = [x] ∧
        ∃ i p, Sender S (h₀.after S events) buf pkt i p ∧
          (x = .tun pkt ∨ ∃ j dst dg, j ≠ i ∧ x = .forwarded j pkt dst dg ∧
            Recipient S (h₀.after S events) pkt j dst dg)) := by
  have ha := apart_after (S := S) hinit events
  refine ⟨nodup_all_live_ids ha, fun hbuf => onlyParks_init ha hbuf src now now_ns r_eph, ?_⟩
  intro x hx pkt hpkt
  have hhandled := handled_datagram (S := S) ha buf src now now_ns r_eph
  generalize (handle_datagram S (h₀.after S events) buf src now now_ns r_eph).2 = sent at hx hhandled ⊢
  cases hhandled with
  | nothing => exact (List.not_mem_nil hx).elim
  | answered _ =>
      rw [List.mem_singleton.mp hx] at hpkt
      cases hpkt
  | @delivered i p pkt' sent hsender hrouted =>
      have hone : sent = [x] := by
        match sent, hx, hrouted.once with
        | [y], hx, _ => rw [List.mem_singleton.mp hx]
      refine ⟨hone, i, p, ?_⟩
      rcases hrouted.place x hx with rfl | ⟨j, dst, dg, hj, rfl, hrecipient⟩
      · obtain rfl := Option.some.inj hpkt
        exact ⟨hsender, .inl rfl⟩
      · obtain rfl := Option.some.inj hpkt
        exact ⟨hsender, .inr ⟨j, dst, dg, hj, rfl, hrecipient⟩⟩

namespace Sample

def hub : Hub where
  my_static := server
  self_ip := [10, 66, 0, 1]
  peers := [{ static_pk := client.pk, tunnel_ip := [10, 66, 0, 2] },
    { static_pk := (keypair_generate .sample [8]).pk, tunnel_ip := [10, 66, 0, 3] }]

/-- A packet of the first client to the hub itself. -/
def packet : Bytes := 69 :: (List.replicate 11 0 ++ [10, 66, 0, 2, 10, 66, 0, 1])

/-- The first client connects. -/
def hubEvents : List Hub.Event :=
  [.datagram (message 2).2 {} 100 1000 fun _ => [21],
    .datagram (keepalive 2 21) {} 100 1000 fun _ => []]

/-- The packet as the client's second datagram. -/
def sealedPacket : Bytes := datagram { session 2 21 with send_counter := 1 } SDTP_MSG_DATA packet

theorem initial_hub : hub.Initial where
  fresh p hp := by
    rcases List.mem_cons.mp hp with rfl | hp
    · rfl
    · obtain rfl := List.mem_singleton.mp hp
      rfl
  keys := by decide +kernel

end Sample

open Sample in
theorem hub_isolation_sample :
    ∃ i p, Sender .sample (hub.after .sample hubEvents) sealedPacket packet i p :=
  have hsent : Sent.tun packet ∈
      (handle_datagram .sample (hub.after .sample hubEvents) sealedPacket {} 100 1000
        fun _ => []).2 := by decide +kernel
  have ⟨_, i, p, hsender, _⟩ :=
    (hub_isolation .sample initial_hub hubEvents sealedPacket {} 100 1000 fun _ => []).2.2 _ hsent
      packet rfl
  ⟨i, p, hsender⟩

end Secdogie.Tunnel
