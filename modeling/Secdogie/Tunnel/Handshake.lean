/-
# `Secdogie.Tunnel.Handshake` — the two messages, and the keys they lead to

What the keys of a session depend on is `Secrets`: the three shared secrets and
the two static keys.  The derivation keeps all of it, and the direction, so
long as the inputs it hashes do not collide (`CollisionFree`): two sessions
with one key between them have the same secrets, and a key of one direction is
none of the other.
-/
import Secdogie.Tunnel.Session

namespace Secdogie.Tunnel

/-! ## The derivation keeps its inputs -/

/-- No two of the inputs have the same hash. -/
def CollisionFree (S : Sodium) (inputs : Bytes → Prop) : Prop :=
  ∀ x y, inputs x → inputs y → S.generichash 32 x [] = S.generichash 32 y [] → x = y

namespace Secrets

variable {S : Sodium} {inputs : Bytes → Prop} {x y : Secrets}

/-- The lengths that the parts have in the source. -/
structure WF (x : Secrets) : Prop where
  dh1 : x.dh1.length = SDTP_KEY_LEN
  dh2 : x.dh2.length = SDTP_KEY_LEN
  dh3 : x.dh3.length = SDTP_KEY_LEN
  i_static_pk : x.i_static_pk.length = SDTP_KEY_LEN

theorem length_ck₃ : (x.ck₃ S).length = 32 := S.length_generichash _ _ _

theorem append_eq {a b c d : Bytes} {n : Nat} (ha : a.length = n) (hb : b.length = n)
    (h : a ++ c = b ++ d) : a = b ∧ c = d :=
  List.append_inj h (ha.trans hb.symm)

/-- The last input says the direction and all of the secrets. -/
theorem transport_inj (hfree : CollisionFree S inputs) (hx : ∀ b ∈ x.hashed S, inputs b)
    (hy : ∀ b ∈ y.hashed S, inputs b) (wx : x.WF) (wy : y.WF) {d e : UInt8}
    (h : x.transport S d = y.transport S e) : d = e ∧ x = y := by
  obtain ⟨hck₃, htail⟩ := append_eq length_ck₃ length_ck₃ h
  obtain ⟨rfl, hstatic⟩ := List.cons.inj htail
  obtain ⟨hi, hr⟩ := append_eq wx.i_static_pk wy.i_static_pk hstatic
  have h₃ : x.ck₂ S ++ x.dh3 = y.ck₂ S ++ y.dh3 :=
    hfree _ _ (hx _ (by simp [hashed])) (hy _ (by simp [hashed])) hck₃
  obtain ⟨hck₂, hdh3⟩ :=
    append_eq (S.length_generichash _ _ _) (S.length_generichash _ _ _) h₃
  have h₂ : x.ck₁ S ++ x.dh2 = y.ck₁ S ++ y.dh2 :=
    hfree _ _ (hx _ (by simp [hashed])) (hy _ (by simp [hashed])) hck₂
  obtain ⟨hck₁, hdh2⟩ :=
    append_eq (S.length_generichash _ _ _) (S.length_generichash _ _ _) h₂
  have h₁ : ck₀ S ++ x.dh1 = ck₀ S ++ y.dh1 :=
    hfree _ _ (hx _ (by simp [hashed])) (hy _ (by simp [hashed])) hck₁
  have hdh1 : x.dh1 = y.dh1 := List.append_cancel_left h₁
  refine ⟨rfl, ?_⟩
  cases x
  cases y
  simp_all

variable (hfree : CollisionFree S inputs) (hx : ∀ b ∈ x.hashed S, inputs b)
  (hy : ∀ b ∈ y.hashed S, inputs b) (wx : x.WF) (wy : y.WF)

include hfree hx hy wx wy

theorem eq_of_i2r (h : (x.derive_transport_keys S).i2r = (y.derive_transport_keys S).i2r) :
    x = y :=
  (transport_inj hfree hx hy wx wy
    (hfree _ _ (hx _ (by simp [hashed])) (hy _ (by simp [hashed])) h)).2

theorem eq_of_r2i (h : (x.derive_transport_keys S).r2i = (y.derive_transport_keys S).r2i) :
    x = y :=
  (transport_inj hfree hx hy wx wy
    (hfree _ _ (hx _ (by simp [hashed])) (hy _ (by simp [hashed])) h)).2

/-- The two directions have no key in common. -/
theorem i2r_ne_r2i : (x.derive_transport_keys S).i2r ≠ (y.derive_transport_keys S).r2i := by
  intro h
  have hdirection := (transport_inj hfree hx hy wx wy
    (hfree _ _ (hx _ (by simp [hashed])) (hy _ (by simp [hashed])) h)).1
  exact absurd hdirection (by decide)

end Secrets

/-! ## Message 1 -/

/-- `sdtp_handshake_state` -/
structure HandshakeState where
  eph : Keypair
  session_id : Bytes

/-- What message 1 says before its mac. -/
def msg1_body (session_id i_static_pk i_eph_pk : Bytes) (timestamp : Nat) : Bytes :=
  SDTP_MSG_HANDSHAKE_INIT :: (session_id ++ i_static_pk ++ i_eph_pk ++ put_u64be timestamp)

/-- `sdtp_handshake_init_create`, of the bytes that it draws and the clock. -/
def handshake_init_create (S : Sodium) (eph session_id : Bytes) (now : Nat) (my_static : Keypair)
    (peer_static_pk : Bytes) : HandshakeState × Bytes :=
  let kp := keypair_generate S eph
  let body := msg1_body session_id my_static.pk kp.pk now
  (⟨kp, session_id⟩, body ++ mac1 S peer_static_pk body)

/-! ## Message 2 -/

def msg1_session_id (msg1 : Bytes) : Bytes := slice msg1 1 SDTP_SESSION_ID_LEN
def msg1_static_pk (msg1 : Bytes) : Bytes := slice msg1 9 SDTP_KEY_LEN
def msg1_eph_pk (msg1 : Bytes) : Bytes := slice msg1 41 SDTP_KEY_LEN
def msg1_timestamp (msg1 : Bytes) : Nat := get_u64be (slice msg1 73 8)

/-- The secrets of the responder, of its static key and an ephemeral one. -/
def respond_secrets (S : Sodium) (my_static : Keypair) (r_eph : Bytes) (msg1 : Bytes) :
    Option Secrets :=
  match S.scalarmult my_static.sk (msg1_eph_pk msg1),
    S.scalarmult r_eph (msg1_static_pk msg1), S.scalarmult r_eph (msg1_eph_pk msg1) with
  | some dh1, some dh2, some dh3 => some ⟨dh1, dh2, dh3, msg1_static_pk msg1, my_static.pk⟩
  | _, _, _ => none

/-- Message 2 up to the confirmation, which is sealed with it. -/
def msg2_header (session_id r_eph_pk : Bytes) : Bytes :=
  SDTP_MSG_HANDSHAKE_RESP :: (session_id ++ r_eph_pk)

/-- The timestamp of message 1 is within the window around the clock. -/
def within_window (now timestamp : Nat) : Bool :=
  let delta := if timestamp < now then now - timestamp else timestamp - now
  delta ≤ SDTP_HANDSHAKE_WINDOW_S * 1000000000

/-- `sdtp_handshake_respond`: message 2, the timestamp and the session. -/
def handshake_respond (S : Sodium) (now : Nat) (r_eph : Bytes) (msg1 : Bytes)
    (my_static : Keypair) (expected_peer_static_pk : Bytes) (last_peer_timestamp : Nat) :
    Option (Bytes × Nat × Session) :=
  if msg1.length ≠ SDTP_MSG1_LEN ∨ msg1.getD 0 0 ≠ SDTP_MSG_HANDSHAKE_INIT then none
  else if mac1 S my_static.pk (msg1.take 81) ≠ slice msg1 81 SDTP_MAC_LEN then none
  else if msg1_static_pk msg1 ≠ expected_peer_static_pk then none
  else if within_window now (msg1_timestamp msg1) = false then none
  else if msg1_timestamp msg1 ≤ last_peer_timestamp then none
  else
    match respond_secrets S my_static r_eph msg1 with
    | none => none
    | some secrets =>
        let keys := secrets.derive_transport_keys S
        let header := msg2_header (msg1_session_id msg1) (keypair_generate S r_eph).pk
        some (header ++ S.aead_encrypt CONFIRM_PT header CONFIRM_NONCE keys.r2i,
          msg1_timestamp msg1, init_session_common (msg1_session_id msg1) keys false)

/-- What an answered message 1 is, and what the answer is. -/
structure Responded (S : Sodium) (r_eph msg1 : Bytes) (my_static : Keypair)
    (expected_peer_static_pk : Bytes) (last_peer_timestamp : Nat) (msg2 : Bytes)
    (timestamp : Nat) (session : Session) (secrets : Secrets) : Prop where
  length : msg1.length = SDTP_MSG1_LEN
  type : msg1.getD 0 0 = SDTP_MSG_HANDSHAKE_INIT
  claimed : msg1_static_pk msg1 = expected_peer_static_pk
  stamped : timestamp = msg1_timestamp msg1
  newer : last_peer_timestamp < timestamp
  derived : respond_secrets S my_static r_eph msg1 = some secrets
  parked : session =
    init_session_common (msg1_session_id msg1) (secrets.derive_transport_keys S) false
  answer : msg2 = msg2_header (msg1_session_id msg1) (keypair_generate S r_eph).pk ++
    S.aead_encrypt CONFIRM_PT (msg2_header (msg1_session_id msg1) (keypair_generate S r_eph).pk)
      CONFIRM_NONCE (secrets.derive_transport_keys S).r2i

variable {S : Sodium} {now : Nat} {r_eph msg1 : Bytes} {my_static : Keypair} {peer_pk : Bytes}
  {last ts : Nat} {msg2 : Bytes} {s : Session}

theorem handshake_respond_some
    (h : handshake_respond S now r_eph msg1 my_static peer_pk last = some (msg2, ts, s)) :
    ∃ secrets, Responded S r_eph msg1 my_static peer_pk last msg2 ts s secrets := by
  rw [handshake_respond] at h
  split_ifs at h with hshape hmac hpeer hwindow hnewer
  cases hsecrets : respond_secrets S my_static r_eph msg1 with
  | none => rw [hsecrets] at h; cases h
  | some secrets =>
      rw [hsecrets] at h
      obtain ⟨hmsg2, hrest⟩ := Prod.mk.inj (Option.some.inj h)
      obtain ⟨hts, hs⟩ := Prod.mk.inj hrest
      obtain ⟨hlen, htype⟩ := not_or.mp hshape
      exact ⟨secrets, of_not_not hlen, of_not_not htype, of_not_not hpeer, hts.symm,
        hts ▸ Nat.lt_of_not_le hnewer, hsecrets, hs.symm, hmsg2.symm⟩

theorem respond_secrets_some {secrets : Secrets}
    (h : respond_secrets S my_static r_eph msg1 = some secrets) :
    S.scalarmult my_static.sk (msg1_eph_pk msg1) = some secrets.dh1 ∧
    S.scalarmult r_eph (msg1_static_pk msg1) = some secrets.dh2 ∧
    S.scalarmult r_eph (msg1_eph_pk msg1) = some secrets.dh3 ∧
    secrets.i_static_pk = msg1_static_pk msg1 ∧ secrets.r_static_pk = my_static.pk := by
  rw [respond_secrets] at h
  split at h
  · rename_i dh1 dh2 dh3 h₁ h₂ h₃
    obtain rfl := Option.some.inj h
    exact ⟨h₁, h₂, h₃, rfl, rfl⟩
  · cases h

theorem length_slice {bs : Bytes} {start len : Nat} (h : start + len ≤ bs.length) :
    (slice bs start len).length = len := by
  rw [slice, List.length_take, List.length_drop]
  omega

/-- The secrets of an answered message 1 have the source's lengths. -/
theorem Responded.wf {secrets : Secrets}
    (h : Responded S r_eph msg1 my_static peer_pk last msg2 ts s secrets) : secrets.WF := by
  obtain ⟨h₁, h₂, h₃, hi, -⟩ := respond_secrets_some h.derived
  refine ⟨S.length_scalarmult _ _ _ h₁, S.length_scalarmult _ _ _ h₂,
    S.length_scalarmult _ _ _ h₃, ?_⟩
  rw [hi, msg1_static_pk, length_slice]
  rw [h.length]
  decide

/-! ## The end of the handshake -/

/-- The secrets of the initiator, of the responder's ephemeral key. -/
def finish_secrets (S : Sodium) (hs : HandshakeState) (my_static : Keypair)
    (peer_static_pk r_eph_pk : Bytes) : Option Secrets :=
  match S.scalarmult hs.eph.sk peer_static_pk, S.scalarmult my_static.sk r_eph_pk,
    S.scalarmult hs.eph.sk r_eph_pk with
  | some dh1, some dh2, some dh3 => some ⟨dh1, dh2, dh3, my_static.pk, peer_static_pk⟩
  | _, _, _ => none

/-- `sdtp_handshake_finish` -/
def handshake_finish (S : Sodium) (hs : HandshakeState) (msg2 : Bytes) (my_static : Keypair)
    (peer_static_pk : Bytes) : Option Session :=
  if msg2.length ≠ SDTP_MSG2_LEN ∨ msg2.getD 0 0 ≠ SDTP_MSG_HANDSHAKE_RESP then none
  else if slice msg2 1 SDTP_SESSION_ID_LEN ≠ hs.session_id then none
  else
    match finish_secrets S hs my_static peer_static_pk (slice msg2 9 SDTP_KEY_LEN) with
    | none => none
    | some secrets =>
        let keys := secrets.derive_transport_keys S
        match S.aead_decrypt (msg2.drop 41) (msg2.take 41) CONFIRM_NONCE keys.r2i with
        | none => none
        | some _ => some (init_session_common hs.session_id keys true)

/-- What an accepted message 2 is, and the session of it. -/
structure Finished (S : Sodium) (hs : HandshakeState) (msg2 : Bytes) (my_static : Keypair)
    (peer_static_pk : Bytes) (session : Session) (secrets : Secrets) : Prop where
  length : msg2.length = SDTP_MSG2_LEN
  type : msg2.getD 0 0 = SDTP_MSG_HANDSHAKE_RESP
  session_id : slice msg2 1 SDTP_SESSION_ID_LEN = hs.session_id
  derived : finish_secrets S hs my_static peer_static_pk (slice msg2 9 SDTP_KEY_LEN) = some secrets
  confirmed : (S.aead_decrypt (msg2.drop 41) (msg2.take 41) CONFIRM_NONCE
    (secrets.derive_transport_keys S).r2i).isSome
  established : session = init_session_common hs.session_id (secrets.derive_transport_keys S) true

theorem handshake_finish_some {hs : HandshakeState}
    (h : handshake_finish S hs msg2 my_static peer_pk = some s) :
    ∃ secrets, Finished S hs msg2 my_static peer_pk s secrets := by
  rw [handshake_finish] at h
  split_ifs at h with hshape hid
  cases hsecrets : finish_secrets S hs my_static peer_pk (slice msg2 9 SDTP_KEY_LEN) with
  | none => rw [hsecrets] at h; cases h
  | some secrets =>
      rw [hsecrets] at h
      dsimp only at h
      cases hconfirm : S.aead_decrypt (msg2.drop 41) (msg2.take 41) CONFIRM_NONCE
          (secrets.derive_transport_keys S).r2i with
      | none => rw [hconfirm] at h; cases h
      | some pt =>
          rw [hconfirm] at h
          obtain ⟨hlen, htype⟩ := not_or.mp hshape
          exact ⟨secrets, of_not_not hlen, of_not_not htype, of_not_not hid, hsecrets,
            Option.isSome_iff_exists.mpr ⟨pt, hconfirm⟩, (Option.some.inj h).symm⟩

theorem finish_secrets_some {hs : HandshakeState} {r_eph_pk : Bytes} {secrets : Secrets}
    (h : finish_secrets S hs my_static peer_pk r_eph_pk = some secrets) :
    S.scalarmult hs.eph.sk peer_pk = some secrets.dh1 ∧
    S.scalarmult my_static.sk r_eph_pk = some secrets.dh2 ∧
    S.scalarmult hs.eph.sk r_eph_pk = some secrets.dh3 ∧
    secrets.i_static_pk = my_static.pk ∧ secrets.r_static_pk = peer_pk := by
  rw [finish_secrets] at h
  split at h
  · rename_i dh1 dh2 dh3 h₁ h₂ h₃
    obtain rfl := Option.some.inj h
    exact ⟨h₁, h₂, h₃, rfl, rfl⟩
  · cases h

/-! ## An honest handshake -/

/-- The fields of message 1 are what they were put there as. -/
theorem msg1_fields {session_id i_static_pk i_eph_pk : Bytes} (timestamp : Nat) (rest : Bytes)
    (hid : session_id.length = SDTP_SESSION_ID_LEN) (hstatic : i_static_pk.length = SDTP_KEY_LEN)
    (heph : i_eph_pk.length = SDTP_KEY_LEN) :
    let msg1 := msg1_body session_id i_static_pk i_eph_pk timestamp ++ rest
    msg1_session_id msg1 = session_id ∧ msg1_static_pk msg1 = i_static_pk ∧
      msg1_eph_pk msg1 = i_eph_pk := by
  intro msg1
  have hdrop : msg1.drop 1 =
      session_id ++ (i_static_pk ++ (i_eph_pk ++ (put_u64be timestamp ++ rest))) := by
    simp only [msg1, msg1_body, List.cons_append, List.drop_one, List.tail_cons, List.append_assoc]
  have hdrop₉ : msg1.drop 9 = i_static_pk ++ (i_eph_pk ++ (put_u64be timestamp ++ rest)) := by
    rw [show 9 = 1 + SDTP_SESSION_ID_LEN from rfl, ← List.drop_drop, hdrop, List.drop_left' hid]
  have hdrop₄₁ : msg1.drop 41 = i_eph_pk ++ (put_u64be timestamp ++ rest) := by
    rw [show 41 = 9 + SDTP_KEY_LEN from rfl, ← List.drop_drop, hdrop₉, List.drop_left' hstatic]
  refine ⟨?_, ?_, ?_⟩
  · rw [msg1_session_id, slice, hdrop, List.take_left' hid]
  · rw [msg1_static_pk, slice, hdrop₉, List.take_left' hstatic]
  · rw [msg1_eph_pk, slice, hdrop₄₁, List.take_left' heph]

theorem length_msg2_header {session_id r_eph_pk : Bytes}
    (hid : session_id.length = SDTP_SESSION_ID_LEN) (heph : r_eph_pk.length = SDTP_KEY_LEN) :
    (msg2_header session_id r_eph_pk).length = 41 := by
  rw [msg2_header, List.length_cons, List.length_append, hid, heph]
  rfl

/-- The fields of message 2. -/
theorem msg2_fields {session_id r_eph_pk : Bytes} (rest : Bytes)
    (hid : session_id.length = SDTP_SESSION_ID_LEN) (heph : r_eph_pk.length = SDTP_KEY_LEN) :
    let msg2 := msg2_header session_id r_eph_pk ++ rest
    slice msg2 1 SDTP_SESSION_ID_LEN = session_id ∧ slice msg2 9 SDTP_KEY_LEN = r_eph_pk := by
  intro msg2
  have hdrop : msg2.drop 1 = session_id ++ (r_eph_pk ++ rest) := by
    simp only [msg2, msg2_header, List.cons_append, List.drop_one, List.tail_cons,
      List.append_assoc]
  constructor
  · rw [slice, hdrop, List.take_left' hid]
  · rw [slice, show 9 = 1 + SDTP_SESSION_ID_LEN from rfl, ← List.drop_drop, hdrop,
      List.drop_left' hid, List.take_left' heph]

/-- The two sides mix the same three secrets, each with the keys it has. -/
theorem finish_secrets_eq {i_sk r_sk eph r_eph session_id msg1 : Bytes}
    (hstatic : msg1_static_pk msg1 = (keypair_generate S i_sk).pk)
    (heph : msg1_eph_pk msg1 = (keypair_generate S eph).pk) :
    finish_secrets S ⟨keypair_generate S eph, session_id⟩ (keypair_generate S i_sk)
        (keypair_generate S r_sk).pk (keypair_generate S r_eph).pk =
      respond_secrets S (keypair_generate S r_sk) r_eph msg1 := by
  rw [finish_secrets, respond_secrets, hstatic, heph]
  dsimp only [keypair_generate]
  rw [S.scalarmult_comm eph r_sk, S.scalarmult_comm i_sk r_eph, S.scalarmult_comm eph r_eph]

/-- An answer to the initiator's own message 1 is accepted, and both sides have
the same keys. -/
theorem finish_respond {i_sk r_sk eph r_eph session_id : Bytes} {now_i now_r : Nat}
    {hs : HandshakeState}
    (hid : session_id.length = SDTP_SESSION_ID_LEN)
    (hmsg1 : handshake_init_create S eph session_id now_i (keypair_generate S i_sk)
      (keypair_generate S r_sk).pk = (hs, msg1))
    (h : handshake_respond S now_r r_eph msg1 (keypair_generate S r_sk)
      (keypair_generate S i_sk).pk last = some (msg2, ts, s)) :
    ∃ c, handshake_finish S hs msg2 (keypair_generate S i_sk) (keypair_generate S r_sk).pk =
      some c ∧ Matching c s := by
  obtain ⟨secrets, hresponded⟩ := handshake_respond_some h
  obtain ⟨rfl, rfl⟩ := Prod.mk.inj hmsg1
  obtain ⟨hsid, hstatic, heph⟩ := msg1_fields now_i
    (mac1 S (keypair_generate S r_sk).pk (msg1_body session_id
      (keypair_generate S i_sk).pk (keypair_generate S eph).pk now_i)) hid (length_pk S i_sk) (length_pk S eph)
  have hsecrets : finish_secrets S ⟨keypair_generate S eph, session_id⟩ (keypair_generate S i_sk)
      (keypair_generate S r_sk).pk (keypair_generate S r_eph).pk = some secrets :=
    (finish_secrets_eq hstatic heph).trans hresponded.derived
  have hanswer := hresponded.answer
  rw [hsid] at hanswer
  have hparked := hresponded.parked
  rw [hsid] at hparked
  obtain ⟨hmsid, hmeph⟩ := msg2_fields
    (S.aead_encrypt CONFIRM_PT (msg2_header session_id (keypair_generate S r_eph).pk)
      CONFIRM_NONCE (secrets.derive_transport_keys S).r2i) hid (length_pk S r_eph)
  have hheader := length_msg2_header hid (length_pk S r_eph)
  rw [← hanswer] at hmsid hmeph
  refine ⟨init_session_common session_id (secrets.derive_transport_keys S) true, ?_, ?_⟩
  · have hlen : msg2.length = SDTP_MSG2_LEN := by
      rw [hanswer, List.length_append, hheader, S.length_encrypt]
      rfl
    have htype : msg2.getD 0 0 = SDTP_MSG_HANDSHAKE_RESP := by rw [hanswer]; rfl
    have hopen : S.aead_decrypt (msg2.drop 41) (msg2.take 41) CONFIRM_NONCE
        (secrets.derive_transport_keys S).r2i = some CONFIRM_PT := by
      rw [hanswer, List.drop_left' hheader, List.take_left' hheader, S.decrypt_encrypt]
    rw [handshake_finish, if_neg (fun hshape => hshape.elim (· hlen) (· htype)),
      if_neg (fun hne => hne hmsid), hmeph]
    dsimp only [handshake_init_create]
    rw [hsecrets]
    dsimp only
    rw [hopen]
  · rw [hparked]
    exact ⟨rfl, rfl, rfl⟩

end Secdogie.Tunnel
