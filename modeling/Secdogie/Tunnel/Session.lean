/-
# `Secdogie.Tunnel.Session` — the handshake, and the datagrams of a session

Message 1 names the initiator and carries its ephemeral key; message 2 answers
with the responder's, and a confirmation sealed under the key that only the
two static keys' holders can derive.  From then on both sides seal datagrams
under one key for each direction, with a counter as the nonce.

libsodium is a record, `Sodium`: its functions, and the laws they have on every
input.  What is only true of the inputs that a run meets (that no two of them
collide, that a datagram opens under one key) is stated where it is used.
-/
import Secdogie.Tunnel.Window

namespace Secdogie.Tunnel

abbrev Bytes := List UInt8

/-- `memcpy` of a part -/
def slice (bs : Bytes) (start len : Nat) : Bytes := (bs.drop start).take len

def SDTP_KEY_LEN : Nat := 32
def SDTP_SESSION_ID_LEN : Nat := 8
def SDTP_MAC_LEN : Nat := 16
def SDTP_NONCE_LEN : Nat := 24
def SDTP_AEAD_TAG_LEN : Nat := 16
def SDTP_MTU : Nat := 1400

def SDTP_MSG_HANDSHAKE_INIT : UInt8 := 1
def SDTP_MSG_HANDSHAKE_RESP : UInt8 := 2
def SDTP_MSG_DATA : UInt8 := 3
def SDTP_MSG_KEEPALIVE : UInt8 := 4

def SDTP_HANDSHAKE_WINDOW_S : Nat := 60
def SDTP_KEEPALIVE_INTERVAL_S : Nat := 25

def SDTP_MSG1_LEN : Nat :=
  1 + SDTP_SESSION_ID_LEN + SDTP_KEY_LEN + SDTP_KEY_LEN + 8 + SDTP_MAC_LEN
def SDTP_MSG2_LEN : Nat := 1 + SDTP_SESSION_ID_LEN + SDTP_KEY_LEN + 16 + SDTP_AEAD_TAG_LEN
def SDTP_DATA_HDR_LEN : Nat := 1 + SDTP_SESSION_ID_LEN + 8

def UINT64_MAX : Nat := 2 ^ 64 - 1

/-! ## libsodium -/

structure Sodium where
  /-- `crypto_scalarmult_base` -/
  scalarmult_base : Bytes → Bytes
  /-- `crypto_scalarmult` of a secret and a public key; `none` is the all-zero point -/
  scalarmult : Bytes → Bytes → Option Bytes
  /-- `crypto_generichash`: the length asked for, the input, the key -/
  generichash : Nat → Bytes → Bytes → Bytes
  /-- `crypto_aead_xchacha20poly1305_ietf_encrypt`: plaintext, associated data, nonce, key -/
  aead_encrypt : Bytes → Bytes → Bytes → Bytes → Bytes
  /-- `crypto_aead_xchacha20poly1305_ietf_decrypt`: ciphertext, associated data, nonce, key -/
  aead_decrypt : Bytes → Bytes → Bytes → Bytes → Option Bytes
  length_base : ∀ sk, (scalarmult_base sk).length = SDTP_KEY_LEN
  length_scalarmult : ∀ sk pk k, scalarmult sk pk = some k → k.length = SDTP_KEY_LEN
  length_generichash : ∀ n input key, (generichash n input key).length = n
  length_encrypt : ∀ pt ad nonce key,
    (aead_encrypt pt ad nonce key).length = pt.length + SDTP_AEAD_TAG_LEN
  scalarmult_comm : ∀ a b,
    scalarmult a (scalarmult_base b) = scalarmult b (scalarmult_base a)
  decrypt_encrypt : ∀ pt ad nonce key,
    aead_decrypt (aead_encrypt pt ad nonce key) ad nonce key = some pt

/-- `sdtp_keypair`, as `sdtp_keypair_generate` makes it of the bytes it draws. -/
structure Keypair where
  sk : Bytes
  pk : Bytes
deriving DecidableEq

def keypair_generate (S : Sodium) (drawn : Bytes) : Keypair := ⟨drawn, S.scalarmult_base drawn⟩

theorem length_pk (S : Sodium) (drawn : Bytes) :
    (keypair_generate S drawn).pk.length = SDTP_KEY_LEN := S.length_base drawn

def label (s : String) : Bytes := s.toList.map fun c => UInt8.ofNat c.toNat

/-- `sdtp_mac1` -/
def mac1 (S : Sodium) (peer_static_pk data : Bytes) : Bytes :=
  S.generichash SDTP_MAC_LEN data (S.generichash 32 (label "SDTP-mac1" ++ peer_static_pk) [])

/-- The two directional keys. -/
structure Keys where
  i2r : Bytes
  r2i : Bytes
deriving DecidableEq

/-- The three shared secrets, in the order in which they are mixed, and the
two static keys. -/
structure Secrets where
  dh1 : Bytes
  dh2 : Bytes
  dh3 : Bytes
  i_static_pk : Bytes
  r_static_pk : Bytes
deriving DecidableEq

namespace Secrets

variable (S : Sodium) (x : Secrets)

def ck₀ : Bytes := S.generichash 32 (label "SDTP-v1-chaining-key") []
def ck₁ : Bytes := S.generichash 32 (ck₀ S ++ x.dh1) []
def ck₂ : Bytes := S.generichash 32 (x.ck₁ S ++ x.dh2) []
def ck₃ : Bytes := S.generichash 32 (x.ck₂ S ++ x.dh3) []

/-- The last input, with the label of the direction. -/
def transport (direction : UInt8) : Bytes :=
  x.ck₃ S ++ direction :: (x.i_static_pk ++ x.r_static_pk)

/-- `sdtp_derive_transport_keys` -/
def derive_transport_keys : Keys where
  i2r := S.generichash 32 (x.transport S 1) []
  r2i := S.generichash 32 (x.transport S 2) []

/-- What the derivation hashes. -/
def hashed : List Bytes :=
  [ck₀ S ++ x.dh1, x.ck₁ S ++ x.dh2, x.ck₂ S ++ x.dh3, x.transport S 1, x.transport S 2]

end Secrets

/-! ## Numbers -/

/-- `sdtp_put_u64be` -/
def put_u64be (v : Nat) : Bytes := (List.range 8).map fun i => UInt8.ofNat (v >>> (8 * (7 - i)))

/-- `sdtp_get_u64be` -/
def get_u64be (bs : Bytes) : Nat := bs.foldl (fun v b => (v <<< 8) ||| b.toNat) 0

theorem length_put_u64be (v : Nat) : (put_u64be v).length = 8 := by simp [put_u64be]

theorem shift_or (v : Nat) (b : UInt8) : (v <<< 8) ||| b.toNat = v * 256 + b.toNat := by
  rw [← Nat.shiftLeft_add_eq_or_of_lt (show b.toNat < 2 ^ 8 from b.toNat_lt), Nat.shiftLeft_eq]

theorem get_put_u64be {v : Nat} (h : v ≤ UINT64_MAX) : get_u64be (put_u64be v) = v := by
  have hbyte : ∀ n, (UInt8.ofNat n).toNat = n % 256 := fun n => UInt8.toNat_ofNat'
  simp only [put_u64be, get_u64be, List.range, List.range.loop, List.map_cons, List.map_nil,
    List.foldl_cons, List.foldl_nil, shift_or, hbyte, Nat.shiftRight_eq_div_pow]
  unfold UINT64_MAX at h
  omega

theorem get_u64be_le {bs : Bytes} (h : bs.length ≤ 8) : get_u64be bs ≤ UINT64_MAX := by
  have hfold : ∀ (bs : Bytes) (v : Nat),
      bs.foldl (fun v b => (v <<< 8) ||| b.toNat) v < (v + 1) * 256 ^ bs.length := fun bs => by
    induction bs with
    | nil => intro v; simp
    | cons b bs ih =>
        intro v
        have hb : b.toNat < 256 := b.toNat_lt
        calc _ < ((v <<< 8 ||| b.toNat) + 1) * 256 ^ bs.length := ih _
          _ ≤ ((v + 1) * 256) * 256 ^ bs.length := by
              rw [shift_or]
              exact Nat.mul_le_mul_right _ (by omega)
          _ = (v + 1) * 256 ^ (b :: bs).length := by rw [List.length_cons]; ring
  have hlt := hfold bs 0
  have hpow : 256 ^ bs.length ≤ 256 ^ 8 := Nat.pow_le_pow_right (by decide) h
  unfold UINT64_MAX
  rw [get_u64be]
  omega

theorem put_u64be_inj {v w : Nat} (hv : v ≤ UINT64_MAX) (hw : w ≤ UINT64_MAX)
    (h : put_u64be v = put_u64be w) : v = w := by
  rw [← get_put_u64be hv, h, get_put_u64be hw]

/-! ## A session -/

/-- `sdtp_session` -/
structure Session where
  session_id : Bytes := List.replicate SDTP_SESSION_ID_LEN 0
  keys : Keys := ⟨List.replicate SDTP_KEY_LEN 0, List.replicate SDTP_KEY_LEN 0⟩
  /-- the next counter to send with -/
  send_counter : Nat := 0
  replay : Replay := {}
  /-- which of the keys it sends with -/
  is_initiator : Bool := false
  established : Bool := false

/-- `sodium_memzero` -/
def Session.zero : Session := {}

/-- `init_session_common` -/
def init_session_common (session_id : Bytes) (keys : Keys) (is_initiator : Bool) : Session where
  session_id
  keys
  is_initiator
  established := true

namespace Session

def send_key (s : Session) : Bytes := if s.is_initiator then s.keys.i2r else s.keys.r2i
def recv_key (s : Session) : Bytes := if s.is_initiator then s.keys.r2i else s.keys.i2r

end Session

def build_nonce (counter : Nat) : Bytes :=
  List.replicate (SDTP_NONCE_LEN - 8) 0 ++ put_u64be counter

/-- The first byte is 1, so that it is no nonce of the data channel. -/
def CONFIRM_NONCE : Bytes := 1 :: List.replicate 23 0

def CONFIRM_PT : Bytes := label "SDTP-HELLO-R2Iv1"

theorem build_nonce_inj {v w : Nat} (hv : v ≤ UINT64_MAX) (hw : w ≤ UINT64_MAX)
    (h : build_nonce v = build_nonce w) : v = w :=
  put_u64be_inj hv hw (List.append_cancel_left h)

theorem build_nonce_ne_confirm (v : Nat) : build_nonce v ≠ CONFIRM_NONCE := by
  intro h
  have hhead := congrArg List.head? h
  simp [build_nonce, CONFIRM_NONCE, SDTP_NONCE_LEN, List.replicate] at hhead

/-! ## Datagrams -/

/-- The header of a datagram: its type, its session and its counter. -/
def data_header (type : UInt8) (session_id : Bytes) (counter : Nat) : Bytes :=
  type :: (session_id ++ put_u64be counter)

/-- `sdtp_data_encrypt`; `none` when the counter is exhausted. -/
def data_encrypt (S : Sodium) (s : Session) (type : UInt8) (pt : Bytes) :
    Option (Bytes × Session) :=
  if s.send_counter = UINT64_MAX then none
  else
    let header := data_header type s.session_id s.send_counter
    some (header ++ S.aead_encrypt pt header (build_nonce s.send_counter) s.send_key,
      { s with send_counter := s.send_counter + 1 })

def datagram_id (dg : Bytes) : Bytes := slice dg 1 SDTP_SESSION_ID_LEN
def datagram_counter (dg : Bytes) : Nat := get_u64be (slice dg (1 + SDTP_SESSION_ID_LEN) 8)

/-- `sdtp_aead_decrypt` of what stands after the header. -/
def data_open (S : Sodium) (key dg : Bytes) : Option Bytes :=
  S.aead_decrypt (dg.drop SDTP_DATA_HDR_LEN) (dg.take SDTP_DATA_HDR_LEN)
    (build_nonce (datagram_counter dg)) key

/-- `sdtp_data_decrypt`, with the room for the plaintext. -/
def data_decrypt (S : Sodium) (s : Session) (dg : Bytes) (pt_cap : Nat) :
    Option (Bytes × Session) :=
  if dg.length < SDTP_DATA_HDR_LEN + SDTP_AEAD_TAG_LEN then none
  else if dg.getD 0 0 ≠ SDTP_MSG_DATA ∧ dg.getD 0 0 ≠ SDTP_MSG_KEEPALIVE then none
  else if datagram_id dg ≠ s.session_id then none
  else if s.replay.precheck (datagram_counter dg) = false then none
  else if pt_cap < dg.length - SDTP_DATA_HDR_LEN - SDTP_AEAD_TAG_LEN then none
  else
    match data_open S s.recv_key dg with
    | none => none
    | some pt => some (pt, { s with replay := s.replay.accept (datagram_counter dg) })

/-- The datagram opens under the session: it carries the session's id, and its
ciphertext is of the session's receiving key. -/
def Session.Authentic (S : Sodium) (s : Session) (dg : Bytes) : Prop :=
  datagram_id dg = s.session_id ∧ (data_open S s.recv_key dg).isSome

/-- What an accepted datagram is, and what becomes of the session. -/
structure Accepted (S : Sodium) (s : Session) (dg : Bytes) (pt : Bytes) (s' : Session) : Prop where
  length : SDTP_DATA_HDR_LEN + SDTP_AEAD_TAG_LEN ≤ dg.length
  type : dg.getD 0 0 = SDTP_MSG_DATA ∨ dg.getD 0 0 = SDTP_MSG_KEEPALIVE
  session_id : datagram_id dg = s.session_id
  fresh : s.replay.precheck (datagram_counter dg) = true
  opened : data_open S s.recv_key dg = some pt
  session : s' = { s with replay := s.replay.accept (datagram_counter dg) }

variable {S : Sodium} {s s' : Session} {dg pt : Bytes} {pt_cap : Nat}

theorem data_decrypt_some (h : data_decrypt S s dg pt_cap = some (pt, s')) :
    Accepted S s dg pt s' := by
  rw [data_decrypt] at h
  split_ifs at h with hlen htype hid hfresh hcap
  cases hopen : data_open S s.recv_key dg with
  | none => rw [hopen] at h; cases h
  | some opened =>
      rw [hopen] at h
      obtain ⟨rfl, rfl⟩ := Prod.mk.inj (Option.some.inj h)
      refine ⟨Nat.le_of_not_lt hlen, ?_, of_not_not hid, Bool.eq_true_of_not_eq_false hfresh,
        hopen, rfl⟩
      exact (not_and_or.mp htype).imp of_not_not of_not_not

theorem Accepted.authentic (h : Accepted S s dg pt s') : s.Authentic S dg :=
  ⟨h.session_id, Option.isSome_iff_exists.mpr ⟨pt, h.opened⟩⟩

theorem data_encrypt_some {type : UInt8} (h : data_encrypt S s type pt = some (dg, s')) :
    s.send_counter ≠ UINT64_MAX ∧ s' = { s with send_counter := s.send_counter + 1 } ∧
    dg = data_header type s.session_id s.send_counter ++
      S.aead_encrypt pt (data_header type s.session_id s.send_counter)
        (build_nonce s.send_counter) s.send_key := by
  rw [data_encrypt] at h
  split_ifs at h with hmax
  obtain ⟨rfl, rfl⟩ := Prod.mk.inj (Option.some.inj h)
  exact ⟨hmax, rfl, rfl⟩

/-! ## Two sessions that match -/

/-- The two ends of a session. -/
structure Matching (s r : Session) : Prop where
  session_id : r.session_id = s.session_id
  keys : r.keys = s.keys
  roles : r.is_initiator = !s.is_initiator

theorem Matching.key {s r : Session} (h : Matching s r) : r.recv_key = s.send_key := by
  rw [Session.recv_key, Session.send_key, h.keys, h.roles]
  cases s.is_initiator with
  | true => rfl
  | false => rfl

theorem length_data_header {session_id : Bytes} (type : UInt8) (counter : Nat)
    (h : session_id.length = SDTP_SESSION_ID_LEN) :
    (data_header type session_id counter).length = SDTP_DATA_HDR_LEN := by
  rw [data_header, List.length_cons, List.length_append, length_put_u64be, h]
  rfl

/-- The fields of a header are what they were put there as. -/
theorem data_header_fields {session_id : Bytes} {counter : Nat} (type : UInt8) (rest : Bytes)
    (h : session_id.length = SDTP_SESSION_ID_LEN) (hcounter : counter ≤ UINT64_MAX) :
    datagram_id (data_header type session_id counter ++ rest) = session_id ∧
    datagram_counter (data_header type session_id counter ++ rest) = counter := by
  have hdrop : (data_header type session_id counter ++ rest).drop 1 =
      session_id ++ (put_u64be counter ++ rest) := by
    rw [data_header, List.cons_append, List.drop_one, List.tail_cons, List.append_assoc]
  constructor
  · rw [datagram_id, slice, hdrop, List.take_left' h]
  · rw [datagram_counter, slice, ← List.drop_drop, hdrop, List.drop_left' h,
      List.take_left' (length_put_u64be counter), get_put_u64be hcounter]

/-- What one end seals the other opens, if it is not closed to the counter. -/
theorem data_decrypt_encrypt {type : UInt8} {r : Session} (hmatch : Matching s r)
    (hid : s.session_id.length = SDTP_SESSION_ID_LEN) (hcounter : s.send_counter ≤ UINT64_MAX)
    (htype : type = SDTP_MSG_DATA ∨ type = SDTP_MSG_KEEPALIVE)
    (hencrypt : data_encrypt S s type pt = some (dg, s'))
    (hfresh : r.replay.precheck s.send_counter = true) (hcap : pt.length ≤ pt_cap) :
    data_decrypt S r dg pt_cap =
      some (pt, { r with replay := r.replay.accept s.send_counter }) := by
  obtain ⟨-, -, rfl⟩ := data_encrypt_some hencrypt
  obtain ⟨hdgid, hdgcounter⟩ := data_header_fields type
    (S.aead_encrypt pt (data_header type s.session_id s.send_counter)
      (build_nonce s.send_counter) s.send_key) hid hcounter
  have hheader := length_data_header type s.send_counter hid
  have hhead : (data_header type s.session_id s.send_counter ++
      S.aead_encrypt pt (data_header type s.session_id s.send_counter)
        (build_nonce s.send_counter) s.send_key).getD 0 0 = type := rfl
  have hopen : data_open S r.recv_key (data_header type s.session_id s.send_counter ++
      S.aead_encrypt pt (data_header type s.session_id s.send_counter)
        (build_nonce s.send_counter) s.send_key) = some pt := by
    rw [data_open, hdgcounter, List.drop_left' hheader, List.take_left' hheader, hmatch.key,
      S.decrypt_encrypt]
  have hlen : (data_header type s.session_id s.send_counter ++
      S.aead_encrypt pt (data_header type s.session_id s.send_counter)
        (build_nonce s.send_counter) s.send_key).length =
      SDTP_DATA_HDR_LEN + (pt.length + SDTP_AEAD_TAG_LEN) := by
    rw [List.length_append, hheader, S.length_encrypt]
  rw [data_decrypt, hlen, hhead, hdgid, hdgcounter, hopen, hfresh]
  rw [if_neg (by omega), if_neg (fun hne => htype.elim hne.1 hne.2),
    if_neg (fun hne => hne hmatch.session_id.symm), if_neg Bool.true_eq_false.mp,
    if_neg (by omega)]

/-! ## An instance

Small functions with the laws, on which a run can be computed: arithmetic
modulo a prime in the place of the curve, a checksum in the place of the hash. -/

namespace Sodium.Sample

def prime : Nat := 2 ^ 255 - 19

def bytes : Nat → Nat → Bytes
  | 0, _ => []
  | n + 1, v => UInt8.ofNat v :: bytes n (v / 256)

def number : Bytes → Nat
  | [] => 0
  | b :: bs => b.toNat + 256 * number bs

theorem length_bytes (n v : Nat) : (bytes n v).length = n := by
  induction n generalizing v with
  | zero => rfl
  | succ n ih => rw [bytes, List.length_cons, ih]

theorem number_bytes {n v : Nat} (h : v < 256 ^ n) : number (bytes n v) = v := by
  induction n generalizing v with
  | zero => exact (Nat.lt_one_iff.mp h).symm
  | succ n ih =>
      have hbyte : (UInt8.ofNat v).toNat = v % 256 := UInt8.toNat_ofNat'
      rw [bytes, number, hbyte, ih (Nat.div_lt_of_lt_mul (by rwa [← pow_succ'])), Nat.mod_add_div]

def sum (bs : Bytes) : Nat := bs.foldl (fun v b => (v * 1000003 + b.toNat + 7) % prime) 1

def hash (n : Nat) (input key : Bytes) : Bytes :=
  bytes n (sum (UInt8.ofNat key.length :: (key ++ input)))

def base (sk : Bytes) : Bytes := bytes 32 (number sk * 9 % prime)

def mult (sk pk : Bytes) : Option Bytes :=
  let v := number sk * number pk % prime
  if v = 0 then none else some (bytes 32 v)

def pad (nonce key : Bytes) : UInt8 := UInt8.ofNat (sum (key ++ nonce))

def tag (body ad nonce key : Bytes) : Bytes := hash 16 (ad ++ nonce ++ body) key

def encrypt (pt ad nonce key : Bytes) : Bytes :=
  let body := pt.map (· ^^^ pad nonce key)
  body ++ tag body ad nonce key

def decrypt (ct ad nonce key : Bytes) : Option Bytes :=
  let body := ct.take (ct.length - 16)
  if ct.drop (ct.length - 16) = tag body ad nonce key then some (body.map (· ^^^ pad nonce key))
  else none

theorem mult_comm (a b : Bytes) : mult a (base b) = mult b (base a) := by
  have hlt : ∀ v, v % prime < 256 ^ 32 := fun v => (Nat.mod_lt v (by decide)).trans (by decide)
  have hmul : number a * (number b * 9 % prime) % prime =
      number b * (number a * 9 % prime) % prime := by
    rw [Nat.mul_mod_mod, Nat.mul_mod_mod]
    congr 1
    ring
  rw [mult, mult, base, base, number_bytes (hlt _), number_bytes (hlt _), hmul]

theorem length_tag (body ad nonce key : Bytes) : (tag body ad nonce key).length = 16 :=
  length_bytes _ _

theorem decrypt_encrypt (pt ad nonce key : Bytes) :
    decrypt (encrypt pt ad nonce key) ad nonce key = some pt := by
  have hlen : (encrypt pt ad nonce key).length - 16 = (pt.map (· ^^^ pad nonce key)).length := by
    rw [encrypt, List.length_append, length_tag, Nat.add_sub_cancel]
  have hxor : ∀ b : UInt8, (b ^^^ pad nonce key) ^^^ pad nonce key = b := fun b => by
    rw [UInt8.xor_assoc, UInt8.xor_self, UInt8.xor_zero]
  have hmap : (pt.map (· ^^^ pad nonce key)).map (· ^^^ pad nonce key) = pt := by
    rw [List.map_map]
    exact (List.map_congr_left fun b _ => hxor b).trans (List.map_id _)
  rw [decrypt, hlen, encrypt, List.take_left, List.drop_left, if_pos rfl, hmap]

end Sodium.Sample

open Sodium.Sample in
def Sodium.sample : Sodium where
  scalarmult_base := base
  scalarmult := mult
  generichash := hash
  aead_encrypt := encrypt
  aead_decrypt := decrypt
  length_base _ := length_bytes _ _
  length_scalarmult sk pk k h := by
    rw [mult] at h
    split_ifs at h
    exact Option.some.inj h ▸ length_bytes _ _
  length_generichash _ _ _ := length_bytes _ _
  length_encrypt pt ad nonce key := by
    rw [encrypt, List.length_append, List.length_map, length_tag]
    rfl
  scalarmult_comm := mult_comm
  decrypt_encrypt := Sodium.Sample.decrypt_encrypt

end Secdogie.Tunnel
