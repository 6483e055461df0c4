/-
# `Secdogie.Tunnel.Agreement` — one client, one server, and the datagrams between

The two loops of a tunnel, with every sealing on record.  Datagrams reach
either side in any order and from anybody; when a timer runs out is up to the
run.  The record is what the results are about: no key seals twice under one
nonce, what a side opens is what the other side sealed, and a handshake that
the client completes is one that the server answered with the same keys.
-/
import Secdogie.Tunnel.Responder

namespace Secdogie.Tunnel

/-- An input of the authenticated encryption, and whose it is. -/
structure Seal where
  key : Bytes
  nonce : Bytes
  ad : Bytes
  pt : Bytes
  by_initiator : Bool
deriving DecidableEq

def Seal.ciphertext (S : Sodium) (m : Seal) : Bytes := S.aead_encrypt m.pt m.ad m.nonce m.key

/-- What goes over the wire: the associated data stands before the ciphertext. -/
def Seal.datagram (S : Sodium) (m : Seal) : Bytes := m.ad ++ m.ciphertext S

/-- The sealing that `data_encrypt` makes. -/
def Session.seal (s : Session) (type : UInt8) (pt : Bytes) : Seal where
  key := s.send_key
  nonce := build_nonce s.send_counter
  ad := data_header type s.session_id s.send_counter
  pt := pt
  by_initiator := s.is_initiator

/-- The sealing of the confirmation in message 2. -/
def confirmation (key session_id r_eph_pk : Bytes) : Seal where
  key
  nonce := CONFIRM_NONCE
  ad := msg2_header session_id r_eph_pk
  pt := CONFIRM_PT
  by_initiator := false

/-! ## The two sides -/

/-- The static secrets of the two sides. -/
structure Parties where
  i_sk : Bytes
  r_sk : Bytes

namespace Parties

def i (S : Sodium) (P : Parties) : Keypair := keypair_generate S P.i_sk
def r (S : Sodium) (P : Parties) : Keypair := keypair_generate S P.r_sk

end Parties

/-- What the client's loop keeps of its handshake and its session. -/
structure Client where
  session : Session := .zero
  hs : HandshakeState := ⟨⟨[], []⟩, []⟩
  handshake_pending : Bool := false

structure Link where
  client : Client := {}
  server : Responder := {}
  log : List Seal := []

abbrev SessionId := { id : Bytes // id.length = SDTP_SESSION_ID_LEN }

/-- A turn of one of the loops. -/
inductive Link.Event
  /-- `send_msg1`, at the start and again until the handshake is done -/
  | start (eph : Bytes) (id : SessionId) (now_ns : Nat)
  /-- the server has been silent: the session is given up -/
  | silent (eph : Bytes) (id : SessionId) (now_ns : Nat)
  | client_keepalive
  | client_tun (pkt : Bytes)
  | client_datagram (buf : Bytes)
  | server_keepalive
  | server_tun (pkt : Bytes)
  | server_datagram (buf : Bytes) (src : Sockaddr) (now_ns : Nat) (r_eph : Bytes)
  | server_reset

variable (S : Sodium) (P : Parties)

/-- `send_msg1` -/
def send_msg1 (c : Client) (eph : Bytes) (id : SessionId) (now_ns : Nat) : Client :=
  { c with
    hs := (handshake_init_create S eph id now_ns (P.i S) (P.r S).pk).1
    handshake_pending := true }

/-- `sdtp_data_encrypt` on a session, with the sealing on record. -/
def seal_with (s : Session) (type : UInt8) (pt : Bytes) (log : List Seal) : Session × List Seal :=
  match data_encrypt S s type pt with
  | none => (s, log)
  | some (_, s') => (s', log ++ [s.seal type pt])

def client_send (σ : Link) (type : UInt8) (pt : Bytes) : Link :=
  let (session, log) := seal_with S σ.client.session type pt σ.log
  { σ with client := { σ.client with session }, log }

def server_send (σ : Link) (type : UInt8) (pt : Bytes) : Link :=
  let (current, log) := seal_with S σ.server.current type pt σ.log
  { σ with server := { σ.server with current }, log }

/-- A datagram at the client: message 2, which it confirms at once, or data. -/
def client_receive (σ : Link) (buf : Bytes) : Link :=
  if buf.length = 0 then σ
  else if buf.getD 0 0 = SDTP_MSG_HANDSHAKE_RESP ∧ σ.client.handshake_pending then
    match handshake_finish S σ.client.hs buf (P.i S) (P.r S).pk with
    | none => σ
    | some session =>
        client_send S { σ with client := { σ.client with session, handshake_pending := false } }
          SDTP_MSG_KEEPALIVE []
  else if buf.getD 0 0 = SDTP_MSG_DATA ∨ buf.getD 0 0 = SDTP_MSG_KEEPALIVE then
    if σ.client.session.established = false then σ
    else
      match data_decrypt S σ.client.session buf SDTP_MTU with
      | none => σ
      | some (_, session) => { σ with client := { σ.client with session } }
  else σ

/-- A datagram at the server: message 1, or data. -/
def server_receive (σ : Link) (buf : Bytes) (src : Sockaddr) (now_ns : Nat) (r_eph : Bytes) :
    Link :=
  if buf.length = 0 then σ
  else if buf.getD 0 0 = SDTP_MSG_HANDSHAKE_INIT then
    match σ.server.on_init S now_ns r_eph (P.r S) (P.i S).pk buf with
    | none => σ
    | some (_, server) =>
        { σ with
          server
          log := σ.log ++ [confirmation server.pending.keys.r2i (msg1_session_id buf)
            (keypair_generate S r_eph).pk] }
  else if buf.getD 0 0 = SDTP_MSG_DATA ∨ buf.getD 0 0 = SDTP_MSG_KEEPALIVE then
    { σ with server := (σ.server.on_data S buf src SDTP_MTU).2 }
  else σ

def Link.step (σ : Link) : Event → Link
  | .start eph id now_ns =>
      if σ.client.session.established then σ
      else { σ with client := send_msg1 S P σ.client eph id now_ns }
  | .silent eph id now_ns =>
      if σ.client.session.established then
        { σ with client := send_msg1 S P { σ.client with session := .zero } eph id now_ns }
      else σ
  | .client_keepalive =>
      if σ.client.session.established then client_send S σ SDTP_MSG_KEEPALIVE [] else σ
  | .client_tun pkt =>
      if 0 < pkt.length ∧ pkt.length ≤ SDTP_MTU ∧ σ.client.session.established then
        client_send S σ SDTP_MSG_DATA pkt
      else σ
  | .client_datagram buf => client_receive S P σ buf
  | .server_keepalive =>
      if σ.server.current.established ∧ σ.server.have_addr then
        server_send S σ SDTP_MSG_KEEPALIVE []
      else σ
  | .server_tun pkt =>
      if 0 < pkt.length ∧ pkt.length ≤ SDTP_MTU ∧ σ.server.current.established ∧
          σ.server.have_addr then
        server_send S σ SDTP_MSG_DATA pkt
      else σ
  | .server_datagram buf src now_ns r_eph => server_receive S P σ buf src now_ns r_eph
  | .server_reset => { σ with server := σ.server.reset }

/-- The two sides after some events. -/
def Link.after (events : List Event) : Link := events.foldl (Link.step S P) {}

/-! ## What a run relies on -/

namespace Link

def Event.draws : Event → List Bytes
  | .start eph _ _ => [eph]
  | .silent eph _ _ => [eph]
  | .server_datagram _ _ _ r_eph => [r_eph]
  | _ => []

/-- The events with the state before each. -/
def trace (σ : Link) : List Event → List (Link × Event)
  | [] => []
  | e :: events => (σ, e) :: trace (σ.step S P e) events

/-- The secrets that the event mixes, if it comes to that. -/
def derived (t : Link × Event) : List Secrets :=
  match t.2 with
  | .client_datagram buf =>
      if t.1.client.handshake_pending then
        (finish_secrets S t.1.client.hs (P.i S) (P.r S).pk (slice buf 9 SDTP_KEY_LEN)).toList
      else []
  | .server_datagram buf _ _ r_eph => (respond_secrets S (P.r S) r_eph buf).toList
  | _ => []

/-- An input of the authenticated decryption. -/
structure Opening where
  key : Bytes
  nonce : Bytes
  ad : Bytes
  ct : Bytes

def Opening.opens (o : Opening) : Prop := (S.aead_decrypt o.ct o.ad o.nonce o.key).isSome

/-- The sealing is what the opening has before it. -/
structure Opening.Of (o : Opening) (m : Seal) : Prop where
  nonce : m.nonce = o.nonce
  ad : m.ad = o.ad
  ciphertext : m.ciphertext S = o.ct

def data_opening (s : Session) (dg : Bytes) : Opening :=
  ⟨s.recv_key, build_nonce (datagram_counter dg), dg.take SDTP_DATA_HDR_LEN,
    dg.drop SDTP_DATA_HDR_LEN⟩

def confirm_opening (x : Secrets) (msg2 : Bytes) : Opening :=
  ⟨(x.derive_transport_keys S).r2i, CONFIRM_NONCE, msg2.take 41, msg2.drop 41⟩

/-- What the event may try to open: with the keys that its side has. -/
def openings (t : Link × Event) : List Opening :=
  match t.2 with
  | .client_datagram buf =>
      (derived S P t).map (fun x => confirm_opening S x buf) ++
        (if t.1.client.session.established then [data_opening t.1.client.session buf] else [])
  | .server_datagram buf _ _ _ =>
      (if t.1.server.current.established then [data_opening t.1.server.current buf] else []) ++
        (if t.1.server.has_pending then [data_opening t.1.server.pending buf] else [])
  | _ => []

/-- What is relied on of the primitives, on the inputs of a run: ephemeral keys
are drawn once, an exchange with a static key keeps them apart, the hash has no
collision, and what opens was sealed under that key and under no other. -/
structure Ideal (events : List Event) : Prop where
  fresh : events.Pairwise fun d e => ∀ a ∈ d.draws, ∀ b ∈ e.draws,
    S.scalarmult_base a ≠ S.scalarmult_base b
  exchange : ∀ a ∈ events.flatMap Event.draws, ∀ b ∈ events.flatMap Event.draws,
    ∀ pk, pk = (P.i S).pk ∨ pk = (P.r S).pk → ∀ k, S.scalarmult a pk = some k →
      S.scalarmult b pk = some k → S.scalarmult_base a = S.scalarmult_base b
  hash : CollisionFree S fun b => ∃ t ∈ trace S P {} events, ∃ x ∈ derived S P t, b ∈ x.hashed S
  sealed : ∀ t ∈ trace S P {} events, ∀ o ∈ openings S P t, o.opens S →
    ∃ m ∈ t.1.log, m.key = o.key ∧ o.Of S m
  one_key : ∀ t ∈ trace S P {} events, ∀ o ∈ openings S P t, o.opens S →
    ∀ m ∈ t.1.log, o.Of S m → m.key = o.key

variable {S P} {events : List Event} {e : Event} {a b : Bytes} {x y : Secrets}

theorem after_concat : after S P (events ++ [e]) = (after S P events).step S P e := by
  rw [after, List.foldl_append]
  rfl

theorem trace_concat : trace S P {} (events ++ [e]) =
    trace S P {} events ++ [(after S P events, e)] := by
  have hfrom : ∀ (events : List Event) (σ : Link), trace S P σ (events ++ [e]) =
      trace S P σ events ++ [(events.foldl (Link.step S P) σ, e)] := fun events => by
    induction events with
    | nil => intro σ; rfl
    | cons d events ih =>
        intro σ
        rw [List.cons_append, trace, ih]
        rfl
  exact hfrom events {}

theorem mem_trace_last : (after S P events, e) ∈ trace S P {} (events ++ [e]) := by
  rw [trace_concat]
  exact List.mem_append_right _ (List.mem_singleton_self _)

theorem mem_trace_concat {t : Link × Event} (h : t ∈ trace S P {} events) :
    t ∈ trace S P {} (events ++ [e]) := by
  rw [trace_concat]
  exact List.mem_append_left _ h

theorem Ideal.before (h : Ideal S P (events ++ [e])) : Ideal S P events where
  fresh := (List.pairwise_append.mp h.fresh).1
  exchange a ha b hb := h.exchange a (by simp_all) b (by simp_all)
  hash b c hb hc := by
    obtain ⟨t, ht, hb⟩ := hb
    obtain ⟨u, hu, hc⟩ := hc
    exact h.hash b c ⟨t, mem_trace_concat ht, hb⟩ ⟨u, mem_trace_concat hu, hc⟩
  sealed t ht := h.sealed t (mem_trace_concat ht)
  one_key t ht := h.one_key t (mem_trace_concat ht)

/-! ## Whose keys -/

variable (S P) in
/-- The secrets are the client's, of the ephemeral key `a`. -/
structure OfClient (events : List Event) (a : Bytes) (x : Secrets) : Prop where
  drawn : a ∈ events.flatMap Event.draws
  derived : ∃ t ∈ trace S P {} events, x ∈ derived S P t
  wf : x.WF
  exchange : S.scalarmult a (P.r S).pk = some x.dh1

variable (S P) in
/-- The secrets are the server's, of the ephemeral key `a`. -/
structure OfServer (events : List Event) (a : Bytes) (x : Secrets) : Prop where
  drawn : a ∈ events.flatMap Event.draws
  derived : ∃ t ∈ trace S P {} events, x ∈ derived S P t
  wf : x.WF
  exchange : S.scalarmult a (P.i S).pk = some x.dh2

theorem OfClient.concat (h : OfClient S P events a x) (e : Event) :
    OfClient S P (events ++ [e]) a x where
  drawn := by
    rw [List.flatMap_append]
    exact List.mem_append_left _ h.drawn
  derived := by
    obtain ⟨t, ht, hx⟩ := h.derived
    exact ⟨t, mem_trace_concat ht, hx⟩
  wf := h.wf
  exchange := h.exchange

theorem OfServer.concat (h : OfServer S P events a x) (e : Event) :
    OfServer S P (events ++ [e]) a x where
  drawn := by
    rw [List.flatMap_append]
    exact List.mem_append_left _ h.drawn
  derived := by
    obtain ⟨t, ht, hx⟩ := h.derived
    exact ⟨t, mem_trace_concat ht, hx⟩
  wf := h.wf
  exchange := h.exchange

theorem hashed_of_derived (h : ∃ t ∈ trace S P {} events, x ∈ derived S P t) :
    ∀ b ∈ x.hashed S, ∃ t ∈ trace S P {} events, ∃ x ∈ derived S P t, b ∈ x.hashed S := by
  obtain ⟨t, ht, hx⟩ := h
  exact fun b hb => ⟨t, ht, x, hx, hb⟩

theorem OfClient.base_eq (ideal : Ideal S P events) (hx : OfClient S P events a x)
    (hy : OfClient S P events b y)
    (h : (x.derive_transport_keys S).i2r = (y.derive_transport_keys S).i2r) :
    S.scalarmult_base a = S.scalarmult_base b := by
  obtain rfl := Secrets.eq_of_i2r ideal.hash (hashed_of_derived hx.derived)
    (hashed_of_derived hy.derived) hx.wf hy.wf h
  exact ideal.exchange a hx.drawn b hy.drawn _ (.inr rfl) _ hx.exchange hy.exchange

theorem OfServer.base_eq (ideal : Ideal S P events) (hx : OfServer S P events a x)
    (hy : OfServer S P events b y)
    (h : (x.derive_transport_keys S).r2i = (y.derive_transport_keys S).r2i) :
    S.scalarmult_base a = S.scalarmult_base b := by
  obtain rfl := Secrets.eq_of_r2i ideal.hash (hashed_of_derived hx.derived)
    (hashed_of_derived hy.derived) hx.wf hy.wf h
  exact ideal.exchange a hx.drawn b hy.drawn _ (.inl rfl) _ hx.exchange hy.exchange

/-- A key that the client seals with is none that the server seals with. -/
theorem OfClient.ne (ideal : Ideal S P events) (hx : OfClient S P events a x)
    (hy : OfServer S P events b y) :
    (x.derive_transport_keys S).i2r ≠ (y.derive_transport_keys S).r2i :=
  Secrets.i2r_ne_r2i ideal.hash (hashed_of_derived hx.derived) (hashed_of_derived hy.derived)
    hx.wf hy.wf

/-- A key drawn in the last event was not drawn before. -/
theorem base_ne (ideal : Ideal S P (events ++ [e])) (ha : a ∈ events.flatMap Event.draws)
    (hb : b ∈ e.draws) : S.scalarmult_base a ≠ S.scalarmult_base b := by
  obtain ⟨d, hd, ha⟩ := List.mem_flatMap.mp ha
  exact (List.pairwise_append.mp ideal.fresh).2.2 d hd e (List.mem_singleton_self e) a ha b hb

/-! ## The record -/

variable (S P) in
/-- The confirmation was sealed when the server answered a message 1, and it
parked a session with the same secrets and the same id. -/
def AnsweredWith (events : List Event) (m : Seal) (x : Secrets) : Prop :=
  ∃ before buf src now_ns r_eph later msg2 server,
    events = before ++ .server_datagram buf src now_ns r_eph :: later ∧
    (after S P before).server.on_init S now_ns r_eph (P.r S) (P.i S).pk buf = some (msg2, server) ∧
    (after S P before).step S P (.server_datagram buf src now_ns r_eph) =
      { after S P before with server, log := (after S P before).log ++ [m] } ∧
    server.pending = init_session_common (msg1_session_id buf) (x.derive_transport_keys S) false ∧
    m = confirmation (x.derive_transport_keys S).r2i (msg1_session_id buf)
      (keypair_generate S r_eph).pk

/-- The sealing is of a data datagram: its counter is in its header and its nonce. -/
def DataSeal (m : Seal) : Prop :=
  ∃ type session_id counter, session_id.length = SDTP_SESSION_ID_LEN ∧ counter ≤ UINT64_MAX ∧
    m.ad = data_header type session_id counter ∧ m.nonce = build_nonce counter

/-- The client's live session: its own key has sealed under smaller counters only. -/
structure ClientSession (S : Sodium) (P : Parties) (events : List Event) (log : List Seal)
    (s : Session) : Prop where
  role : s.is_initiator = true
  session_id : s.session_id.length = SDTP_SESSION_ID_LEN
  counter : s.send_counter ≤ UINT64_MAX
  keys : ∃ a x, OfClient S P events a x ∧ s.keys = x.derive_transport_keys S
  used : ∀ m ∈ log, m.key = s.keys.i2r → ∃ c, c < s.send_counter ∧ m.nonce = build_nonce c

/-- A session of the server: its own key has sealed the confirmation, and under
smaller counters. -/
structure ServerSession (S : Sodium) (P : Parties) (events : List Event) (log : List Seal)
    (s : Session) : Prop where
  role : s.is_initiator = false
  session_id : s.session_id.length = SDTP_SESSION_ID_LEN
  counter : s.send_counter ≤ UINT64_MAX
  keys : ∃ a x, OfServer S P events a x ∧ s.keys = x.derive_transport_keys S
  used : ∀ m ∈ log, m.key = s.keys.r2i →
    m.nonce = CONFIRM_NONCE ∨ ∃ c, c < s.send_counter ∧ m.nonce = build_nonce c

/-- What holds after every run. -/
structure Sound (S : Sodium) (P : Parties) (events : List Event) (σ : Link) : Prop where
  /-- no key seals twice under one nonce -/
  nodup : (σ.log.map fun m => (m.key, m.nonce)).Nodup
  client_seals : ∀ m ∈ σ.log, m.by_initiator = true → DataSeal m ∧ ∃ a x,
    OfClient S P events a x ∧ m.key = (x.derive_transport_keys S).i2r ∧
    (σ.client.handshake_pending = true →
      S.scalarmult_base a ≠ S.scalarmult_base σ.client.hs.eph.sk)
  server_seals : ∀ m ∈ σ.log, m.by_initiator = false → ∃ a x,
    OfServer S P events a x ∧ m.key = (x.derive_transport_keys S).r2i ∧
    (DataSeal m ∨ m.nonce = CONFIRM_NONCE ∧ AnsweredWith S P events m x)
  /-- the client's ephemeral key is drawn, and a session id is eight bytes -/
  drawn : σ.client.handshake_pending = true →
    σ.client.hs.eph.sk ∈ events.flatMap Event.draws ∧
    σ.client.hs.session_id.length = SDTP_SESSION_ID_LEN
  exclusive : σ.client.handshake_pending = true → σ.client.session.established = false
  client : σ.client.session.established = true →
    ClientSession S P events σ.log σ.client.session
  current : σ.server.current.established = true →
    ServerSession S P events σ.log σ.server.current
  pending : σ.server.has_pending = true → ServerSession S P events σ.log σ.server.pending
  apart : σ.server.current.established = true → σ.server.has_pending = true →
    σ.server.pending.keys.r2i ≠ σ.server.current.keys.r2i

theorem sound_initial : Sound S P [] {} where
  nodup := List.nodup_nil
  client_seals _ h := (List.not_mem_nil h).elim
  server_seals _ h := (List.not_mem_nil h).elim
  drawn h := (Bool.false_ne_true h).elim
  exclusive h := (Bool.false_ne_true h).elim
  client h := (Bool.false_ne_true h).elim
  current h := (Bool.false_ne_true h).elim
  pending h := (Bool.false_ne_true h).elim
  apart h := (Bool.false_ne_true h).elim

variable {σ : Link} {log : List Seal} {s : Session} {m : Seal}

theorem ClientSession.concat (h : ClientSession S P events log s) (e : Event) :
    ClientSession S P (events ++ [e]) log s := by
  obtain ⟨a, x, hx, hkeys⟩ := h.keys
  exact { h with keys := ⟨a, x, hx.concat e, hkeys⟩ }

theorem ServerSession.concat (h : ServerSession S P events log s) (e : Event) :
    ServerSession S P (events ++ [e]) log s := by
  obtain ⟨a, x, hx, hkeys⟩ := h.keys
  exact { h with keys := ⟨a, x, hx.concat e, hkeys⟩ }

theorem AnsweredWith.concat (h : AnsweredWith S P events m x) (e : Event) :
    AnsweredWith S P (events ++ [e]) m x := by
  obtain ⟨before, buf, src, now_ns, r_eph, later, msg2, server, rfl, hrest⟩ := h
  exact ⟨before, buf, src, now_ns, r_eph, later ++ [e], msg2, server, by simp, hrest⟩

/-- What holds of a state stays true when an event does nothing to it. -/
theorem Sound.concat (h : Sound S P events σ) (e : Event) : Sound S P (events ++ [e]) σ where
  nodup := h.nodup
  client_seals m hm hby := by
    obtain ⟨hnonce, a, x, hx, hrest⟩ := h.client_seals m hm hby
    exact ⟨hnonce, a, x, hx.concat e, hrest⟩
  server_seals m hm hby := by
    obtain ⟨a, x, hx, hkey, hkind⟩ := h.server_seals m hm hby
    exact ⟨a, x, hx.concat e, hkey, hkind.imp_right fun hc => ⟨hc.1, hc.2.concat e⟩⟩
  drawn hpending := by
    obtain ⟨hdrawn, hid⟩ := h.drawn hpending
    rw [List.flatMap_append]
    exact ⟨List.mem_append_left _ hdrawn, hid⟩
  exclusive := h.exclusive
  client hlive := (h.client hlive).concat e
  current hlive := (h.current hlive).concat e
  pending hlive := (h.pending hlive).concat e
  apart := h.apart

/-! ## Sealing -/

theorem nodup_seal (h : (log.map fun m => (m.key, m.nonce)).Nodup)
    (hnew : ∀ n ∈ log, n.key = m.key → n.nonce ≠ m.nonce) :
    ((log ++ [m]).map fun m => (m.key, m.nonce)).Nodup := by
  rw [List.map_append, List.map_singleton]
  refine List.nodup_append.mpr ⟨h, List.nodup_singleton _, fun p hp q hq heq => ?_⟩
  obtain ⟨n, hn, rfl⟩ := List.mem_map.mp hp
  obtain ⟨hkey, hnonce⟩ := Prod.mk.inj (heq.trans (List.mem_singleton.mp hq))
  exact hnew n hn hkey hnonce

/-- Another key's sealing leaves what the client's key has sealed. -/
theorem ClientSession.other (h : ClientSession S P events log s) (hne : m.key ≠ s.keys.i2r) :
    ClientSession S P events (log ++ [m]) s where
  role := h.role
  session_id := h.session_id
  counter := h.counter
  keys := h.keys
  used n hn hkey := by
    rcases List.mem_append.mp hn with hold | hnow
    · exact h.used n hold hkey
    · exact absurd (List.mem_singleton.mp hnow ▸ hkey) hne

theorem ServerSession.other (h : ServerSession S P events log s) (hne : m.key ≠ s.keys.r2i) :
    ServerSession S P events (log ++ [m]) s where
  role := h.role
  session_id := h.session_id
  counter := h.counter
  keys := h.keys
  used n hn hkey := by
    rcases List.mem_append.mp hn with hold | hnow
    · exact h.used n hold hkey
    · exact absurd (List.mem_singleton.mp hnow ▸ hkey) hne

theorem seal_with_cases (s : Session) (type : UInt8) (pt : Bytes) (log : List Seal) :
    seal_with S s type pt log = (s, log) ∨
    s.send_counter ≠ UINT64_MAX ∧ seal_with S s type pt log =
      ({ s with send_counter := s.send_counter + 1 }, log ++ [s.seal type pt]) := by
  rw [seal_with]
  cases hencrypt : data_encrypt S s type pt with
  | none => exact .inl rfl
  | some sealed =>
      obtain ⟨dg, s'⟩ := sealed
      obtain ⟨hmax, rfl, -⟩ := data_encrypt_some hencrypt
      exact .inr ⟨hmax, rfl⟩

theorem ClientSession.seal_key (h : ClientSession S P events log s) (type : UInt8) (pt : Bytes) :
    (s.seal type pt).key = s.keys.i2r := by
  rw [Session.seal, Session.send_key, h.role, if_pos rfl]

theorem ServerSession.seal_key (h : ServerSession S P events log s) (type : UInt8) (pt : Bytes) :
    (s.seal type pt).key = s.keys.r2i := by
  rw [Session.seal, Session.send_key, h.role]
  rfl

theorem sound_client_send (ideal : Ideal S P events) (h : Sound S P events σ)
    (hlive : σ.client.session.established = true) (type : UInt8) (pt : Bytes) :
    Sound S P events (client_send S σ type pt) := by
  have hs := h.client hlive
  obtain ⟨a, x, hx, hkeys⟩ := hs.keys
  have hkey := hs.seal_key type pt
  rw [client_send]
  rcases seal_with_cases (S := S) σ.client.session type pt σ.log with hnone | ⟨hmax, hsome⟩
  · rw [hnone]
    exact h
  · rw [hsome]
    have hserver : ∀ t, ServerSession S P events σ.log t →
        ServerSession S P events (σ.log ++ [σ.client.session.seal type pt]) t := fun t ht => by
      obtain ⟨b, y, hy, hykeys⟩ := ht.keys
      refine ht.other ?_
      rw [hkey, hkeys, hykeys]
      exact hx.ne ideal hy
    refine ⟨?_, ?_, ?_, h.drawn, fun hpending => ?_, fun _ => ?_, fun hl => hserver _ (h.current hl),
      fun hl => hserver _ (h.pending hl), h.apart⟩
    · -- the counter is above those that the key has sealed under
      refine nodup_seal h.nodup fun n hn hnkey hnonce => ?_
      obtain ⟨c, hc, hnc⟩ := hs.used n hn (hnkey.trans hkey)
      have heq := build_nonce_inj (hc.le.trans hs.counter) hs.counter (hnc.symm.trans hnonce)
      omega
    · intro n hn hby
      rcases List.mem_append.mp hn with hold | hnow
      · exact h.client_seals n hold hby
      · obtain rfl := List.mem_singleton.mp hnow
        refine ⟨⟨_, _, _, hs.session_id, hs.counter, rfl, rfl⟩, a, x, hx, by rw [hkey, hkeys], fun hpending => ?_⟩
        exact absurd hlive (Bool.eq_false_iff.mp (h.exclusive hpending))
    · intro n hn hby
      rcases List.mem_append.mp hn with hold | hnow
      · exact h.server_seals n hold hby
      · obtain rfl := List.mem_singleton.mp hnow
        exact absurd (hby.symm.trans hs.role) Bool.false_ne_true
    · exact absurd hlive (Bool.eq_false_iff.mp (h.exclusive hpending))
    · refine ⟨hs.role, hs.session_id, Nat.lt_of_le_of_ne hs.counter hmax, hs.keys, ?_⟩
      intro n hn hnkey
      rcases List.mem_append.mp hn with hold | hnow
      · obtain ⟨c, hc, hnc⟩ := hs.used n hold hnkey
        exact ⟨c, hc.trans (Nat.lt_succ_self _), hnc⟩
      · obtain rfl := List.mem_singleton.mp hnow
        exact ⟨_, Nat.lt_succ_self _, rfl⟩

theorem sound_server_send (ideal : Ideal S P events) (h : Sound S P events σ)
    (hlive : σ.server.current.established = true) (type : UInt8) (pt : Bytes) :
    Sound S P events (server_send S σ type pt) := by
  have hs := h.current hlive
  obtain ⟨a, x, hx, hkeys⟩ := hs.keys
  have hkey := hs.seal_key type pt
  rw [server_send]
  rcases seal_with_cases (S := S) σ.server.current type pt σ.log with hnone | ⟨hmax, hsome⟩
  · rw [hnone]
    exact h
  · rw [hsome]
    refine ⟨?_, ?_, ?_, h.drawn, h.exclusive, fun hl => ?_, fun _ => ?_, fun hl => ?_, h.apart⟩
    · refine nodup_seal h.nodup fun n hn hnkey hnonce => ?_
      rcases hs.used n hn (hnkey.trans hkey) with hconfirm | ⟨c, hc, hnc⟩
      · exact build_nonce_ne_confirm _ (hnonce.symm.trans hconfirm)
      · have heq := build_nonce_inj (hc.le.trans hs.counter) hs.counter (hnc.symm.trans hnonce)
        omega
    · intro n hn hby
      rcases List.mem_append.mp hn with hold | hnow
      · exact h.client_seals n hold hby
      · obtain rfl := List.mem_singleton.mp hnow
        exact absurd (hs.role.symm.trans hby) Bool.false_ne_true
    · intro n hn hby
      rcases List.mem_append.mp hn with hold | hnow
      · exact h.server_seals n hold hby
      · obtain rfl := List.mem_singleton.mp hnow
        exact ⟨a, x, hx, by rw [hkey, hkeys],
          .inl ⟨_, _, _, hs.session_id, hs.counter, rfl, rfl⟩⟩
    · obtain ⟨b, y, hy, hykeys⟩ := (h.client hl).keys
      refine (h.client hl).other ?_
      rw [hkey, hkeys, hykeys]
      exact (hy.ne ideal hx).symm
    · refine ⟨hs.role, hs.session_id, Nat.lt_of_le_of_ne hs.counter hmax, hs.keys, ?_⟩
      intro n hn hnkey
      rcases List.mem_append.mp hn with hold | hnow
      · rcases hs.used n hold hnkey with hconfirm | ⟨c, hc, hnc⟩
        · exact .inl hconfirm
        · exact .inr ⟨c, hc.trans (Nat.lt_succ_self _), hnc⟩
      · obtain rfl := List.mem_singleton.mp hnow
        exact .inr ⟨_, Nat.lt_succ_self _, rfl⟩
    · refine (h.pending hl).other ?_
      rw [hkey]
      exact (h.apart hlive hl).symm

/-! ## Handshakes -/

/-- A new message 1: its ephemeral key has not been drawn before. -/
theorem sound_start (ideal : Ideal S P (events ++ [e])) (h : Sound S P events σ) {eph : Bytes}
    (heph : eph ∈ e.draws) (id : SessionId) (now_ns : Nat) {session : Session}
    (hdead : session.established = false) :
    Sound S P (events ++ [e])
      { σ with client := send_msg1 S P { σ.client with session } eph id now_ns } := by
  have h' := h.concat e
  refine ⟨h'.nodup, fun m hm hby => ?_, h'.server_seals, fun _ => ⟨?_, id.2⟩, fun _ => hdead,
    fun hlive => ?_, h'.current, h'.pending, h'.apart⟩
  · obtain ⟨hnonce, a, x, hx, hkey, -⟩ := h.client_seals m hm hby
    exact ⟨hnonce, a, x, hx.concat e, hkey, fun _ => base_ne ideal hx.drawn heph⟩
  · rw [List.flatMap_append, List.flatMap_singleton]
    exact List.mem_append_right _ heph
  · exact absurd hlive (Bool.eq_false_iff.mp hdead)

theorem finished_wf {hs : HandshakeState} {msg2 : Bytes}
    (h : Finished S hs msg2 (P.i S) (P.r S).pk s x) : x.WF := by
  obtain ⟨h₁, h₂, h₃, hi, -⟩ := finish_secrets_some h.derived
  refine ⟨S.length_scalarmult _ _ _ h₁, S.length_scalarmult _ _ _ h₂,
    S.length_scalarmult _ _ _ h₃, ?_⟩
  rw [hi]
  exact length_pk S P.i_sk

/-- The client's handshake ends: the key it now sends with has not been used. -/
theorem sound_finish (ideal : Ideal S P events) (h : Sound S P events σ)
    (hpending : σ.client.handshake_pending = true) {msg2 : Bytes}
    (hderived : ∃ t ∈ trace S P {} events, x ∈ derived S P t)
    (hfinished : Finished S σ.client.hs msg2 (P.i S) (P.r S).pk s x) :
    Sound S P events
      { σ with client := { σ.client with session := s, handshake_pending := false } } := by
  obtain ⟨hdrawn, hid⟩ := h.drawn hpending
  have hx : OfClient S P events σ.client.hs.eph.sk x :=
    ⟨hdrawn, hderived, finished_wf hfinished, (finish_secrets_some hfinished.derived).1⟩
  refine ⟨h.nodup, fun m hm hby => ?_, h.server_seals, fun hp => (Bool.false_ne_true hp).elim,
    fun hp => (Bool.false_ne_true hp).elim, fun _ => ?_, h.current, h.pending, h.apart⟩
  · obtain ⟨hnonce, a, y, hy, hkey, -⟩ := h.client_seals m hm hby
    exact ⟨hnonce, a, y, hy, hkey, fun hp => (Bool.false_ne_true hp).elim⟩
  · have hkeys : s.keys = x.derive_transport_keys S := by rw [hfinished.established]; rfl
    refine ⟨by rw [hfinished.established]; rfl, by rw [hfinished.established]; exact hid,
      by rw [hfinished.established]; exact Nat.zero_le _, ⟨_, x, hx, hkeys⟩, fun m hm hkey => ?_⟩
    rw [hkeys] at hkey
    cases hby : m.by_initiator with
    | true =>
        obtain ⟨-, a, y, hy, hykey, hne⟩ := h.client_seals m hm hby
        exact absurd (hy.base_eq ideal hx (hykey.symm.trans hkey)) (hne hpending)
    | false =>
        obtain ⟨a, y, hy, hykey, -⟩ := h.server_seals m hm hby
        exact absurd (hkey.symm.trans hykey) (hx.ne ideal hy)

/-- The server answers: its key is of a new ephemeral key, and has sealed the
confirmation only. -/
theorem sound_answer (ideal : Ideal S P (events ++ [e])) (h : Sound S P events σ)
    {r_eph buf msg2 : Bytes} {ts : Nat} (hdraws : r_eph ∈ e.draws)
    (hderived : x ∈ derived S P (after S P events, e))
    (hresponded : Responded S r_eph buf (P.r S) (P.i S).pk σ.server.committed_ts msg2 ts s x)
    (hm : m = confirmation (x.derive_transport_keys S).r2i (msg1_session_id buf)
      (keypair_generate S r_eph).pk)
    (hanswered : AnsweredWith S P (events ++ [e]) m x) :
    Sound S P (events ++ [e])
      { σ with
        server := { σ.server with pending := s, pending_ts := ts, has_pending := true }
        log := σ.log ++ [m] } := by
  have h' := h.concat e
  have hx : OfServer S P (events ++ [e]) r_eph x := by
    refine ⟨?_, ⟨_, mem_trace_last, hderived⟩, hresponded.wf, ?_⟩
    · rw [List.flatMap_append, List.flatMap_singleton]
      exact List.mem_append_right _ hdraws
    · rw [← hresponded.claimed]
      exact (respond_secrets_some hresponded.derived).2.1
  have hkey : m.key = (x.derive_transport_keys S).r2i := by rw [hm]; rfl
  have hkeys : s.keys = x.derive_transport_keys S := by rw [hresponded.parked]; rfl
  -- no key of an earlier answer is this one
  have hnew : ∀ a y, OfServer S P events a y → (y.derive_transport_keys S).r2i ≠ m.key :=
    fun a y hy heq => base_ne ideal hy.drawn hdraws
      ((hy.concat e).base_eq ideal hx (heq.trans hkey))
  have hunused : ∀ n ∈ σ.log, n.key ≠ m.key := fun n hn heq => by
    cases hby : n.by_initiator with
    | true =>
        obtain ⟨-, a, y, hy, hykey, -⟩ := h.client_seals n hn hby
        exact (hy.concat e).ne ideal hx (hykey.symm.trans (heq.trans hkey))
    | false =>
        obtain ⟨a, y, hy, hykey, -⟩ := h.server_seals n hn hby
        exact hnew a y hy (hykey.symm.trans heq)
  refine ⟨?_, fun n hn hby => ?_, fun n hn hby => ?_, h'.drawn, h'.exclusive, fun hl => ?_,
    fun hl => ?_, fun _ => ?_, fun hl _ heq => ?_⟩
  · exact nodup_seal h.nodup fun n hn heq => absurd heq (hunused n hn)
  · rcases List.mem_append.mp hn with hold | hnow
    · exact h'.client_seals n hold hby
    · rw [List.mem_singleton.mp hnow, hm] at hby
      exact (Bool.false_ne_true hby).elim
  · rcases List.mem_append.mp hn with hold | hnow
    · exact h'.server_seals n hold hby
    · rw [List.mem_singleton.mp hnow]
      exact ⟨r_eph, x, hx, hkey, .inr ⟨by rw [hm]; rfl, hanswered⟩⟩
  · obtain ⟨a, y, hy, hykeys⟩ := (h.client hl).keys
    refine (h'.client hl).other fun heq => ?_
    rw [hykeys] at heq
    exact (hy.concat e).ne ideal hx (heq.symm.trans hkey)
  · obtain ⟨a, y, hy, hykeys⟩ := (h.current hl).keys
    refine (h'.current hl).other fun heq => ?_
    rw [hykeys] at heq
    exact hnew a y hy heq.symm
  · refine ⟨by rw [hresponded.parked]; rfl, ?_, by rw [hresponded.parked]; exact Nat.zero_le _,
      ⟨r_eph, x, hx, hkeys⟩, fun n hn heq => ?_⟩
    · rw [hresponded.parked]
      refine length_slice ?_
      rw [hresponded.length]
      decide
    · rcases List.mem_append.mp hn with hold | hnow
      · rw [hkeys, ← hkey] at heq
        exact absurd heq (hunused n hold)
      · rw [List.mem_singleton.mp hnow, hm]
        exact .inl rfl
  · obtain ⟨a, y, hy, hykeys⟩ := (h.current hl).keys
    have heq' : s.keys.r2i = σ.server.current.keys.r2i := heq
    rw [hkeys, hykeys, ← hkey] at heq'
    exact hnew a y hy heq'.symm

/-! ## Data -/

/-- An accepted datagram moves the window, and nothing else of the session. -/
theorem ClientSession.accepted {s' : Session} {dg pt : Bytes} (h : ClientSession S P events log s)
    (haccepted : Accepted S s dg pt s') : ClientSession S P events log s' := by
  rw [haccepted.session]
  exact ⟨h.role, h.session_id, h.counter, h.keys, h.used⟩

theorem ServerSession.accepted {s' : Session} {dg pt : Bytes} (h : ServerSession S P events log s)
    (haccepted : Accepted S s dg pt s') : ServerSession S P events log s' := by
  rw [haccepted.session]
  exact ⟨h.role, h.session_id, h.counter, h.keys, h.used⟩

theorem sound_client_data (h : Sound S P events σ) (hlive : σ.client.session.established = true)
    {s' : Session} {dg pt : Bytes} (haccepted : Accepted S σ.client.session dg pt s') :
    Sound S P events { σ with client := { σ.client with session := s' } } := by
  refine ⟨h.nodup, h.client_seals, h.server_seals, h.drawn, fun hpending => ?_, fun _ => ?_,
    h.current, h.pending, h.apart⟩
  · exact absurd hlive (Bool.eq_false_iff.mp (h.exclusive hpending))
  · exact (h.client hlive).accepted haccepted

theorem sound_server_data (h : Sound S P events σ) (dg : Bytes) (src : Sockaddr) :
    Sound S P events { σ with server := (σ.server.on_data S dg src SDTP_MTU).2 } := by
  have hcases := Responder.on_data_cases S σ.server dg src SDTP_MTU
  generalize σ.server.on_data S dg src SDTP_MTU = result at hcases ⊢
  cases hcases with
  | drop => exact h
  | ok hlive haccepted =>
      refine ⟨h.nodup, h.client_seals, h.server_seals, h.drawn, h.exclusive, h.client,
        fun _ => (h.current hlive).accepted haccepted, h.pending, fun _ hpending => ?_⟩
      rw [haccepted.session]
      exact h.apart hlive hpending
  | promoted hpending haccepted =>
      exact ⟨h.nodup, h.client_seals, h.server_seals, h.drawn, h.exclusive, h.client,
        fun _ => (h.pending hpending).accepted haccepted, fun hp => (Bool.false_ne_true hp).elim,
        fun _ hp => (Bool.false_ne_true hp).elim⟩

theorem sound_reset (h : Sound S P events σ) :
    Sound S P events { σ with server := σ.server.reset } :=
  ⟨h.nodup, h.client_seals, h.server_seals, h.drawn, h.exclusive, h.client,
    fun hl => (Bool.false_ne_true hl).elim, fun hp => (Bool.false_ne_true hp).elim,
    fun hl => (Bool.false_ne_true hl).elim⟩

/-! ## Every event -/

theorem sound_client_receive {buf : Bytes} (he : e = .client_datagram buf)
    (ideal : Ideal S P (events ++ [e])) (h : Sound S P events (after S P events)) :
    Sound S P (events ++ [e]) (client_receive S P (after S P events) buf) := by
  have h' := h.concat e
  rw [client_receive]
  split_ifs with hempty hresp hdata hdead
  · exact h'
  · cases hfinish : handshake_finish S (after S P events).client.hs buf (P.i S) (P.r S).pk with
    | none => exact h'
    | some s =>
        obtain ⟨x, hfinished⟩ := handshake_finish_some hfinish
        have hderived : x ∈ derived S P (after S P events, e) := by
          rw [he, derived]
          dsimp only
          rw [if_pos hresp.2, hfinished.derived]
          exact List.mem_singleton_self x
        have hlive : s.established = true := by rw [hfinished.established]; rfl
        exact sound_client_send ideal
          (sound_finish ideal h' hresp.2 ⟨_, mem_trace_last, hderived⟩ hfinished) hlive _ _
  · exact h'
  · cases hdecrypt : data_decrypt S (after S P events).client.session buf SDTP_MTU with
    | none => exact h'
    | some opened =>
        exact sound_client_data h' (Bool.eq_true_of_not_eq_false hdead)
          (data_decrypt_some hdecrypt)
  · exact h'

theorem sound_server_receive {buf r_eph : Bytes} {src : Sockaddr} {now_ns : Nat}
    (he : e = .server_datagram buf src now_ns r_eph) (ideal : Ideal S P (events ++ [e]))
    (h : Sound S P events (after S P events)) :
    Sound S P (events ++ [e]) (server_receive S P (after S P events) buf src now_ns r_eph) := by
  have h' := h.concat e
  have hstep : (after S P events).step S P (.server_datagram buf src now_ns r_eph) =
    server_receive S P (after S P events) buf src now_ns r_eph := rfl
  rw [server_receive] at hstep ⊢
  split_ifs at hstep ⊢ with hempty hinit hdata
  · exact h'
  · cases hon : (after S P events).server.on_init S now_ns r_eph (P.r S) (P.i S).pk buf with
    | none => exact h'
    | some answer =>
        obtain ⟨msg2, server⟩ := answer
        rw [hon] at hstep
        obtain ⟨-, ts, fresh, x, hresponded, rfl⟩ := Responder.on_init_some hon
        have hparked := hresponded.parked
        have hkeys : fresh.keys = x.derive_transport_keys S := by rw [hparked]; rfl
        have hderived : x ∈ derived S P (after S P events, e) := by
          rw [he, derived]
          dsimp only
          rw [hresponded.derived]
          exact List.mem_singleton_self x
        have hdraws : r_eph ∈ e.draws := by
          rw [he]
          exact List.mem_singleton_self r_eph
        dsimp only at hstep ⊢
        rw [hkeys] at hstep ⊢
        refine sound_answer ideal h hdraws hderived hresponded rfl ?_
        exact ⟨events, buf, src, now_ns, r_eph, [], msg2, _, by rw [he], hon, hstep, hparked, rfl⟩
  · exact sound_server_data h' buf src
  · exact h'

theorem sound_step (ideal : Ideal S P (events ++ [e])) (h : Sound S P events (after S P events)) :
    Sound S P (events ++ [e]) ((after S P events).step S P e) := by
  have h' := h.concat e
  cases e with
  | start eph id now_ns =>
      rw [Link.step]
      split_ifs with hlive
      · exact h'
      · exact sound_start ideal h (List.mem_singleton_self eph) id now_ns
          (Bool.eq_false_of_not_eq_true hlive)
  | silent eph id now_ns =>
      rw [Link.step]
      split_ifs with hlive
      · exact sound_start ideal h (List.mem_singleton_self eph) id now_ns rfl
      · exact h'
  | client_keepalive =>
      rw [Link.step]
      split_ifs with hlive
      · exact sound_client_send ideal h' hlive _ _
      · exact h'
  | client_tun pkt =>
      rw [Link.step]
      split_ifs with hsend
      · exact sound_client_send ideal h' hsend.2.2 _ _
      · exact h'
  | client_datagram buf => exact sound_client_receive rfl ideal h
  | server_keepalive =>
      rw [Link.step]
      split_ifs with hsend
      · exact sound_server_send ideal h' hsend.1 _ _
      · exact h'
  | server_tun pkt =>
      rw [Link.step]
      split_ifs with hsend
      · exact sound_server_send ideal h' hsend.2.2.1 _ _
      · exact h'
  | server_datagram buf src now_ns r_eph => exact sound_server_receive rfl ideal h
  | server_reset => exact sound_reset h'

theorem sound_after (ideal : Ideal S P events) : Sound S P events (after S P events) := by
  induction events using List.reverseRecOn with
  | nil => exact sound_initial
  | append_singleton events e ih =>
      rw [after_concat]
      exact sound_step ideal (ih ideal.before)

/-! ## What a side opens, the other sealed -/

variable {dg pt : Bytes}

theorem of_dataSeal (h : DataSeal m) (hdg : m.datagram S = dg) (s : Session) :
    (data_opening s dg).Of S m := by
  obtain ⟨type, id, counter, hid, hcounter, had, hnonce⟩ := h
  have hlen := length_data_header type counter hid
  rw [← had] at hlen
  obtain ⟨-, hfield⟩ := data_header_fields type (m.ciphertext S) hid hcounter
  rw [← had] at hfield
  have hdg' : dg = m.ad ++ m.ciphertext S := hdg.symm
  refine ⟨?_, ?_, ?_⟩
  · rw [data_opening, hdg', hfield, hnonce]
  · rw [data_opening, hdg', List.take_left' hlen]
  · rw [data_opening, hdg', List.drop_left' hlen]

/-- The sealing says what is opened. -/
theorem opened_of (h : (data_opening s dg).Of S m) (hkey : m.key = s.recv_key)
    (hopen : data_open S s.recv_key dg = some pt) : m.datagram S = dg ∧ m.pt = pt := by
  have hct : m.ciphertext S = dg.drop SDTP_DATA_HDR_LEN := h.ciphertext
  have had : m.ad = dg.take SDTP_DATA_HDR_LEN := h.ad
  have hnonce : m.nonce = build_nonce (datagram_counter dg) := h.nonce
  constructor
  · rw [Seal.datagram, hct, had, List.take_append_drop]
  · rw [data_open, ← hct, ← had, ← hnonce, ← hkey, Seal.ciphertext, S.decrypt_encrypt] at hopen
    exact Option.some.inj hopen

variable (S) in
/-- The datagram was sealed, with this plaintext, and by one of the sides only. -/
structure From (log : List Seal) (dg pt : Bytes) (by_initiator : Bool) : Prop where
  sealed : ∃ m ∈ log, m.by_initiator = by_initiator ∧ m.datagram S = dg ∧ m.pt = pt
  only : ∀ m ∈ log, m.datagram S = dg → m.by_initiator = by_initiator

theorem not_confirmation {hdr key : Bytes} {r_eph_pk : Bytes}
    (htype : dg.getD 0 0 = SDTP_MSG_DATA ∨ dg.getD 0 0 = SDTP_MSG_KEEPALIVE) :
    (confirmation key hdr r_eph_pk).datagram S ≠ dg := by
  intro h
  have hhead : dg.getD 0 0 = SDTP_MSG_HANDSHAKE_RESP := by
    rw [← h]
    rfl
  rw [hhead] at htype
  exact absurd htype (by decide)

theorem from_server (ideal : Ideal S P (events ++ [.client_datagram dg]))
    (hlive : (after S P events).client.session.established = true) {s' : Session}
    (h : Accepted S (after S P events).client.session dg pt s') :
    From S (after S P events).log dg pt false := by
  have hsound := sound_after ideal.before
  have hs := hsound.client hlive
  obtain ⟨a, x, hx, hkeys⟩ := hs.keys
  have hrecv : (after S P events).client.session.recv_key = (x.derive_transport_keys S).r2i := by
    rw [Session.recv_key, hs.role, if_pos rfl, hkeys]
  have hopening : data_opening (after S P events).client.session dg ∈
      openings S P (after S P events, .client_datagram dg) := by
    rw [openings]
    dsimp only
    rw [if_pos hlive]
    exact List.mem_append_right _ (List.mem_singleton_self _)
  have hopens : (data_opening (after S P events).client.session dg).opens S :=
    Option.isSome_iff_exists.mpr ⟨pt, h.opened⟩
  -- no sealing of the client has the key
  have hclient : ∀ n ∈ (after S P events).log, n.by_initiator = true →
      n.key ≠ (x.derive_transport_keys S).r2i := fun n hn hby heq => by
    obtain ⟨-, b, y, hy, hykey, -⟩ := hsound.client_seals n hn hby
    exact Secrets.i2r_ne_r2i ideal.before.hash (hashed_of_derived hy.derived)
      (hashed_of_derived hx.derived) hy.wf hx.wf (hykey.symm.trans heq)
  obtain ⟨m, hm, hkey, hof⟩ := ideal.sealed _ mem_trace_last _ hopening hopens
  obtain ⟨hdg, hpt⟩ := opened_of hof hkey h.opened
  refine ⟨⟨m, hm, ?_, hdg, hpt⟩, fun n hn hdgn => ?_⟩
  · exact Bool.eq_false_of_not_eq_true fun hby => hclient m hm hby (hkey.trans hrecv)
  · refine Bool.eq_false_of_not_eq_true fun hby => hclient n hn hby ?_
    exact (ideal.one_key _ mem_trace_last _ hopening hopens n hn
      (of_dataSeal (hsound.client_seals n hn hby).1 hdgn _)).trans hrecv

theorem from_client {src : Sockaddr} {now_ns : Nat} {r_eph : Bytes}
    (ideal : Ideal S P (events ++ [.server_datagram dg src now_ns r_eph]))
    (hs : ServerSession S P events (after S P events).log s)
    (hopening : data_opening s dg ∈
      openings S P (after S P events, .server_datagram dg src now_ns r_eph)) {s' : Session}
    (h : Accepted S s dg pt s') : From S (after S P events).log dg pt true := by
  have hsound := sound_after ideal.before
  obtain ⟨a, x, hx, hkeys⟩ := hs.keys
  have hrecv : s.recv_key = (x.derive_transport_keys S).i2r := by
    rw [Session.recv_key, hs.role, hkeys]
    rfl
  have hopens : (data_opening s dg).opens S := Option.isSome_iff_exists.mpr ⟨pt, h.opened⟩
  have hserver : ∀ n ∈ (after S P events).log, n.by_initiator = false →
      n.key ≠ (x.derive_transport_keys S).i2r := fun n hn hby heq => by
    obtain ⟨b, y, hy, hykey, -⟩ := hsound.server_seals n hn hby
    exact Secrets.i2r_ne_r2i ideal.before.hash (hashed_of_derived hx.derived)
      (hashed_of_derived hy.derived) hx.wf hy.wf (heq.symm.trans hykey)
  obtain ⟨m, hm, hkey, hof⟩ := ideal.sealed _ mem_trace_last _ hopening hopens
  obtain ⟨hdg, hpt⟩ := opened_of hof hkey h.opened
  refine ⟨⟨m, hm, ?_, hdg, hpt⟩, fun n hn hdgn => ?_⟩
  · exact Bool.eq_true_of_not_eq_false fun hby => hserver m hm hby (hkey.trans hrecv)
  · refine Bool.eq_true_of_not_eq_false fun hby => hserver n hn hby ?_
    obtain ⟨_, _, _, _, hdata | ⟨_, hanswered⟩⟩ := hsound.server_seals n hn hby
    · exact (ideal.one_key _ mem_trace_last _ hopening hopens n hn
        (of_dataSeal hdata hdgn _)).trans hrecv
    · obtain ⟨_, _, _, _, _, _, _, _, _, _, _, _, rfl⟩ := hanswered
      exact absurd hdgn (not_confirmation h.type)

/-! ## Agreement -/

/-- The session has these keys and this id. -/
structure IsSession (s : Session) (keys : Keys) (session_id : Bytes) : Prop where
  established : s.established = true
  keys : s.keys = keys
  session_id : s.session_id = session_id

/-- The responder has such a session: parked, or confirmed with none parked. -/
def Holds (r : Responder) (keys : Keys) (session_id : Bytes) : Prop :=
  r.has_pending = true ∧ IsSession r.pending keys session_id ∨
  r.has_pending = false ∧ IsSession r.current keys session_id

variable (S P) in
/-- The event answers a message 1, or resets the responder. -/
def Displaces (σ : Link) : Event → Prop
  | .server_datagram buf _ now_ns r_eph => buf.getD 0 0 = SDTP_MSG_HANDSHAKE_INIT ∧
      (σ.server.on_init S now_ns r_eph (P.r S) (P.i S).pk buf).isSome
  | .server_reset => True
  | _ => False

variable {r : Responder} {keys : Keys} {id : Bytes}

theorem holds_server_send (h : Holds σ.server keys id) (type : UInt8) (pt : Bytes) :
    Holds (server_send S σ type pt).server keys id := by
  rw [server_send]
  rcases seal_with_cases (S := S) σ.server.current type pt σ.log with hnone | ⟨-, hsome⟩
  · rw [hnone]
    exact h
  · rw [hsome]
    exact h.imp_right fun hcurrent => ⟨hcurrent.1, hcurrent.2.1, hcurrent.2.2, hcurrent.2.3⟩

theorem holds_data (h : Holds r keys id) (buf : Bytes) (src : Sockaddr) :
    Holds (r.on_data S buf src SDTP_MTU).2 keys id := by
  have hcases := Responder.on_data_cases S r buf src SDTP_MTU
  generalize r.on_data S buf src SDTP_MTU = result at hcases ⊢
  cases hcases with
  | drop => exact h
  | ok hlive haccepted =>
      rw [haccepted.session]
      exact h.imp_right fun hcurrent => ⟨hcurrent.1, hcurrent.2.1, hcurrent.2.2, hcurrent.2.3⟩
  | promoted hpending haccepted =>
      rw [haccepted.session]
      rcases h with ⟨-, hparked⟩ | ⟨hno, -⟩
      · exact .inr ⟨rfl, hparked.1, hparked.2, hparked.3⟩
      · exact absurd hpending (Bool.eq_false_iff.mp hno)

theorem client_receive_server (buf : Bytes) : (client_receive S P σ buf).server = σ.server := by
  rw [client_receive]
  split_ifs
  · rfl
  · cases handshake_finish S σ.client.hs buf (P.i S) (P.r S).pk with
    | none => rfl
    | some s => rfl
  · rfl
  · cases data_decrypt S σ.client.session buf SDTP_MTU with
    | none => rfl
    | some opened => rfl
  · rfl

theorem holds_step (h : Holds σ.server keys id) (hkeep : ¬ Displaces S P σ e) :
    Holds (σ.step S P e).server keys id := by
  cases e with
  | start eph id now_ns =>
      rw [Link.step]
      split_ifs
      · exact h
      · exact h
  | silent eph id now_ns =>
      rw [Link.step]
      split_ifs
      · exact h
      · exact h
  | client_keepalive =>
      rw [Link.step]
      split_ifs
      · exact h
      · exact h
  | client_tun pkt =>
      rw [Link.step]
      split_ifs
      · exact h
      · exact h
  | client_datagram buf =>
      rw [Link.step, client_receive_server]
      exact h
  | server_keepalive =>
      rw [Link.step]
      split_ifs
      · exact holds_server_send h _ _
      · exact h
  | server_tun pkt =>
      rw [Link.step]
      split_ifs
      · exact holds_server_send h _ _
      · exact h
  | server_datagram buf src now_ns r_eph =>
      rw [Link.step, server_receive]
      split_ifs with hempty hinit hdata
      · exact h
      · cases hon : σ.server.on_init S now_ns r_eph (P.r S) (P.i S).pk buf with
        | none => exact h
        | some answer =>
            refine absurd ⟨hinit, ?_⟩ hkeep
            rw [hon]
            rfl
      · exact holds_data h buf src
      · exact h
  | server_reset => exact absurd trivial hkeep

/-- The session is held as long as nothing displaces it. -/
theorem holds_after {before later : List Event} (h : Holds (after S P before).server keys id)
    (hkeep : ∀ mid d rest, later = mid ++ d :: rest → ¬ Displaces S P (after S P (before ++ mid)) d) :
    Holds (after S P (before ++ later)).server keys id := by
  induction later using List.reverseRecOn with
  | nil =>
      rw [List.append_nil]
      exact h
  | append_singleton later d ih =>
      rw [← List.append_assoc, after_concat]
      refine holds_step (ih fun mid c rest hsplit => hkeep mid c (rest ++ [d]) ?_)
        (hkeep later d [] rfl)
      rw [hsplit]
      simp

variable (S P) in
/-- Message 2 is the server's answer to a message 1 with the session's id, in
which it derived the session's keys; and it still has them if it has not
answered another message 1 since, and has not been reset. -/
def Agreed (events : List Event) (msg2 : Bytes) (s : Session) : Prop :=
  ∃ before buf src now_ns r_eph later server,
    events = before ++ .server_datagram buf src now_ns r_eph :: later ∧
    msg1_session_id buf = s.session_id ∧
    (after S P before).server.on_init S now_ns r_eph (P.r S) (P.i S).pk buf = some (msg2, server) ∧
    IsSession server.pending s.keys s.session_id ∧
    ((∀ mid d rest, later = mid ++ d :: rest → ¬ Displaces S P
        (after S P (before ++ .server_datagram buf src now_ns r_eph :: mid)) d) →
      Holds (after S P events).server s.keys s.session_id)

theorem agreed_of_finish {msg2 : Bytes} (ideal : Ideal S P (events ++ [.client_datagram msg2]))
    (hpending : (after S P events).client.handshake_pending = true)
    (h : handshake_finish S (after S P events).client.hs msg2 (P.i S) (P.r S).pk = some s) :
    Agreed S P events msg2 s := by
  have hsound := sound_after ideal.before
  obtain ⟨x, hfinished⟩ := handshake_finish_some h
  have hderived : x ∈ derived S P (after S P events, .client_datagram msg2) := by
    rw [derived]
    dsimp only
    rw [if_pos hpending, hfinished.derived]
    exact List.mem_singleton_self x
  have hwf := finished_wf hfinished
  have hopening : confirm_opening S x msg2 ∈
      openings S P (after S P events, .client_datagram msg2) :=
    List.mem_append_left _ (List.mem_map.mpr ⟨x, hderived, rfl⟩)
  obtain ⟨m, hm, hkey, hof⟩ := ideal.sealed _ mem_trace_last _ hopening hfinished.confirmed
  have hnonce : m.nonce = CONFIRM_NONCE := hof.nonce
  have hhashed : ∀ b ∈ x.hashed S, ∃ t ∈ trace S P {} (events ++ [.client_datagram msg2]),
      ∃ x ∈ derived S P t, b ∈ x.hashed S :=
    hashed_of_derived ⟨_, mem_trace_last, hderived⟩
  -- a confirmation, hence the server's
  have hnodata : ¬ DataSeal m := by
    rintro ⟨_, _, counter, -, -, -, hdata⟩
    exact build_nonce_ne_confirm counter (hdata.symm.trans hnonce)
  cases hby : m.by_initiator with
  | true => exact absurd (hsound.client_seals m hm hby).1 hnodata
  | false =>
      obtain ⟨a, y, hy, hykey, hkind⟩ := hsound.server_seals m hm hby
      obtain ⟨-, hanswered⟩ := hkind.resolve_left hnodata
      have hxy : y = x := Secrets.eq_of_r2i ideal.hash
        (hashed_of_derived (hy.concat (.client_datagram msg2)).derived) hhashed hy.wf hwf
        (hykey.symm.trans hkey)
      subst hxy
      obtain ⟨before, buf, src, now_ns, r_eph, later, answer, server, rfl, hon, hstep, hparked,
        rfl⟩ := hanswered
      obtain ⟨-, ts, fresh, z, hresponded, rfl⟩ := Responder.on_init_some hon
      have hkeys : z.derive_transport_keys S = y.derive_transport_keys S := by
        have hz := hresponded.parked.symm.trans hparked
        exact congrArg Session.keys hz
      have hidlen : (msg1_session_id buf).length = SDTP_SESSION_ID_LEN := by
        refine length_slice ?_
        rw [hresponded.length]
        decide
      have had : msg2_header (msg1_session_id buf) (keypair_generate S r_eph).pk = msg2.take 41 :=
        hof.ad
      have hct : S.aead_encrypt CONFIRM_PT
          (msg2_header (msg1_session_id buf) (keypair_generate S r_eph).pk) CONFIRM_NONCE
          (y.derive_transport_keys S).r2i = msg2.drop 41 := hof.ciphertext
      have hmsg2 : answer = msg2 := by
        rw [hresponded.answer, hkeys, hct, had, List.take_append_drop]
      have hid : msg1_session_id buf = s.session_id := by
        have hfield := (msg2_fields (msg2.drop 41) hidlen (length_pk S r_eph)).1
        rw [had, List.take_append_drop, hfinished.session_id] at hfield
        rw [← hfield, hfinished.established]
        rfl
      have hskeys : s.keys = y.derive_transport_keys S := by rw [hfinished.established]; rfl
      have hsession : IsSession fresh s.keys s.session_id := by
        have hfresh : fresh = init_session_common (msg1_session_id buf)
          (y.derive_transport_keys S) false := hparked
        rw [hfresh, hskeys, ← hid]
        exact ⟨rfl, rfl, rfl⟩
      refine ⟨before, buf, src, now_ns, r_eph, later, _, rfl, hid, hmsg2 ▸ hon, hsession, ?_⟩
      intro hkeep
      have hfirst : Holds (after S P (before ++ [.server_datagram buf src now_ns r_eph])).server
          s.keys s.session_id := by
        rw [after_concat, hstep]
        exact .inl ⟨rfl, hsession⟩
      rw [List.append_cons]
      refine holds_after hfirst fun mid d rest hsplit => ?_
      rw [List.append_assoc]
      exact hkeep mid d rest hsplit

/-! ## The two ends of a session -/

variable (S) in
/-- What the one session seals next the other opens, if its window is open to it. -/
def Opens (s r : Session) : Prop :=
  ∀ type pt dg s', type = SDTP_MSG_DATA ∨ type = SDTP_MSG_KEEPALIVE →
    data_encrypt S s type pt = some (dg, s') → pt.length ≤ SDTP_MTU →
    r.replay.precheck s.send_counter = true →
    ∃ r', data_decrypt S r dg SDTP_MTU = some (pt, r')

theorem opens_of_matching {s r : Session} (h : Matching s r)
    (hid : s.session_id.length = SDTP_SESSION_ID_LEN) (hcounter : s.send_counter ≤ UINT64_MAX) :
    Opens S s r := fun _ _ _ _ htype hencrypt hcap hfresh =>
  ⟨_, data_decrypt_encrypt h hid hcounter htype hencrypt hfresh hcap⟩

/-- The client's session and a session of the server with its keys and its id
open each other's datagrams. -/
theorem opens_each_other (hsound : Sound S P events σ)
    (hlive : σ.client.session.established = true)
    (hs : ServerSession S P events σ.log s) (hkeys : s.keys = σ.client.session.keys)
    (hid : s.session_id = σ.client.session.session_id) :
    Opens S σ.client.session s ∧ Opens S s σ.client.session := by
  have hc := hsound.client hlive
  refine ⟨opens_of_matching ⟨hid, hkeys, ?_⟩ hc.session_id hc.counter,
    opens_of_matching ⟨hid.symm, hkeys.symm, ?_⟩ hs.session_id hs.counter⟩
  · rw [hs.role, hc.role]
    rfl
  · rw [hs.role, hc.role]
    rfl

instance (o : Opening) : Decidable (o.opens S) := inferInstanceAs (Decidable (_ = true))

instance (o : Opening) (m : Seal) : Decidable (o.Of S m) :=
  decidable_of_iff (m.nonce = o.nonce ∧ m.ad = o.ad ∧ m.ciphertext S = o.ct)
    ⟨fun h => ⟨h.1, h.2.1, h.2.2⟩, fun h => ⟨h.1, h.2, h.3⟩⟩

/-- What is relied on, as it can be computed of a run. -/
theorem ideal_of_check
    (hfresh : events.Pairwise fun d e => ∀ a ∈ d.draws, ∀ b ∈ e.draws,
      S.scalarmult_base a ≠ S.scalarmult_base b)
    (hexchange : ∀ a ∈ events.flatMap Event.draws, ∀ b ∈ events.flatMap Event.draws,
      ∀ pk ∈ [(P.i S).pk, (P.r S).pk], S.scalarmult a pk = S.scalarmult b pk →
        S.scalarmult_base a = S.scalarmult_base b)
    (hhash : ∀ b ∈ ((trace S P {} events).flatMap (derived S P)).flatMap (Secrets.hashed S),
      ∀ c ∈ ((trace S P {} events).flatMap (derived S P)).flatMap (Secrets.hashed S),
        S.generichash 32 b [] = S.generichash 32 c [] → b = c)
    (haead : ∀ t ∈ trace S P {} events, ∀ o ∈ openings S P t, o.opens S →
      (∃ m ∈ t.1.log, m.key = o.key ∧ o.Of S m) ∧ ∀ m ∈ t.1.log, o.Of S m → m.key = o.key) :
    Ideal S P events where
  fresh := hfresh
  exchange a ha b hb pk hpk k hk hk' :=
    hexchange a ha b hb pk (by simpa using hpk) (hk.trans hk'.symm)
  hash b c hb hc heq := by
    obtain ⟨t, ht, x, hx, hb⟩ := hb
    obtain ⟨u, hu, y, hy, hc⟩ := hc
    exact hhash b (List.mem_flatMap.mpr ⟨x, List.mem_flatMap.mpr ⟨t, ht, hx⟩, hb⟩)
      c (List.mem_flatMap.mpr ⟨y, List.mem_flatMap.mpr ⟨u, hu, hy⟩, hc⟩) heq
  sealed t ht o ho hopens := (haead t ht o ho hopens).1
  one_key t ht o ho hopens := (haead t ht o ho hopens).2

end Link

namespace Sample

def parties : Parties := ⟨[5, 3], [11, 7]⟩

def startEvent : Link.Event := .start [2, 1] ⟨List.replicate 8 2, rfl⟩ 1000

/-- The server answers the client, and then somebody else who claims to be it. -/
def displacedEvents : List Link.Event :=
  [startEvent, .server_datagram (message 2).2 {} 1000 [21],
    .server_datagram (message 3).2 {} 1000 [22]]

/-- A handshake, its confirmation, and a packet from the server. -/
def linkEvents : List Link.Event :=
  [startEvent, .server_datagram (message 2).2 {} 1000 [21], .client_datagram (answer 2 21),
    .server_datagram (keepalive 2 21) {} 1000 [31], .server_tun [1, 2, 3]]

/-- The packet as it reaches the client. -/
def fromServer : Bytes :=
  datagram { session 2 21 with is_initiator := false } SDTP_MSG_DATA [1, 2, 3]

end Sample

end Secdogie.Tunnel
