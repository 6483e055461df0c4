/-
# `Secdogie.Tunnel.Responder` — a session is confirmed before it replaces another

Message 1 carries no proof that its sender has the initiator's key, so its
answer only parks a session: the confirmed one, the peer's address and the
committed timestamp stay as they are until a datagram opens under the parked
session.  What holds in every state that calls lead to is `Parked`; that no
datagram is accepted twice needs more, since a window is forgotten with its
session: a key that has accepted a datagram is in one slot or in none, and its
window there is closed to the datagram's counter (`Remembers`).
-/
import Secdogie.Tunnel.Handshake

namespace Secdogie.Tunnel

/-! ## The responder -/

structure Sockaddr where
  sin_family : Nat := 0
  sin_port : Nat := 0
  sin_addr : Nat := 0
deriving DecidableEq

/-- `sdtp_responder` -/
structure Responder where
  current : Session := .zero
  addr : Sockaddr := {}
  have_addr : Bool := false
  committed_ts : Nat := 0
  pending : Session := .zero
  pending_ts : Nat := 0
  has_pending : Bool := false

/-- `SDTP_RESP_DROP`, `SDTP_RESP_OK` and `SDTP_RESP_PROMOTED`, with the plaintext. -/
inductive Reply
  | drop
  | ok (pt : Bytes)
  | promoted (pt : Bytes)
deriving DecidableEq

def Reply.plaintext : Reply → Option Bytes
  | .drop => none
  | .ok pt => some pt
  | .promoted pt => some pt

namespace Responder

/-- `sdtp_responder_owns` -/
def owns (r : Responder) (session_id : Bytes) : Bool :=
  (r.current.established && session_id == r.current.session_id) ||
    (r.has_pending && session_id == r.pending.session_id)

/-- `sdtp_responder_on_init`: message 2 and the state with the session parked. -/
def on_init (S : Sodium) (r : Responder) (now : Nat) (r_eph : Bytes) (my_static : Keypair)
    (peer_static_pk msg1 : Bytes) : Option (Bytes × Responder) :=
  if msg1.length ≠ SDTP_MSG1_LEN then none
  else if r.owns (msg1_session_id msg1) then none
  else
    match handshake_respond S now r_eph msg1 my_static peer_static_pk r.committed_ts with
    | none => none
    | some (msg2, ts, fresh) =>
        some (msg2, { r with pending := fresh, pending_ts := ts, has_pending := true })

/-- `sdtp_responder_on_data` -/
def on_data (S : Sodium) (r : Responder) (dg : Bytes) (src : Sockaddr) (pt_cap : Nat) :
    Reply × Responder :=
  if dg.length < 1 + SDTP_SESSION_ID_LEN then (.drop, r)
  else if r.current.established && datagram_id dg == r.current.session_id then
    match data_decrypt S r.current dg pt_cap with
    | none => (.drop, r)
    | some (pt, s) => (.ok pt, { r with current := s, addr := src, have_addr := true })
  else if r.has_pending && datagram_id dg == r.pending.session_id then
    match data_decrypt S r.pending dg pt_cap with
    | none => (.drop, r)
    | some (pt, s) =>
        -- the holder of the initiator's key has answered: the session is promoted
        (.promoted pt,
          { current := s, committed_ts := r.pending_ts, addr := src, have_addr := true
            pending := .zero, pending_ts := 0, has_pending := false })
  else (.drop, r)

/-- `sdtp_responder_reset` -/
def reset (r : Responder) : Responder :=
  { r with current := .zero, pending := .zero, pending_ts := 0, has_pending := false }

/-! ## What a call does -/

variable {S : Sodium} {r r' : Responder} {now : Nat} {r_eph msg1 msg2 : Bytes}
  {my_static : Keypair} {peer_pk dg : Bytes} {src : Sockaddr} {pt_cap : Nat}

theorem on_init_some (h : r.on_init S now r_eph my_static peer_pk msg1 = some (msg2, r')) :
    r.owns (msg1_session_id msg1) = false ∧ ∃ ts fresh secrets,
      Responded S r_eph msg1 my_static peer_pk r.committed_ts msg2 ts fresh secrets ∧
      r' = { r with pending := fresh, pending_ts := ts, has_pending := true } := by
  rw [on_init] at h
  split_ifs at h with hlen howns
  cases hrespond : handshake_respond S now r_eph msg1 my_static peer_pk r.committed_ts with
  | none => rw [hrespond] at h; cases h
  | some answer =>
      obtain ⟨msg2', ts, fresh⟩ := answer
      rw [hrespond] at h
      obtain ⟨rfl, rfl⟩ := Prod.mk.inj (Option.some.inj h)
      obtain ⟨secrets, hresponded⟩ := handshake_respond_some hrespond
      exact ⟨Bool.eq_false_of_not_eq_true howns, ts, fresh, secrets, hresponded, rfl⟩

theorem not_owns {session_id : Bytes} (h : r.owns session_id = false) :
    (r.current.established = true → session_id ≠ r.current.session_id) ∧
    (r.has_pending = true → session_id ≠ r.pending.session_id) := by
  obtain ⟨hcurrent, hpending⟩ := Bool.or_eq_false_iff.mp h
  refine ⟨fun hlive heq => ?_, fun hlive heq => ?_⟩
  · rw [hlive, Bool.true_and] at hcurrent
    exact beq_eq_false_iff_ne.mp hcurrent heq
  · rw [hlive, Bool.true_and] at hpending
    exact beq_eq_false_iff_ne.mp hpending heq

/-- The three things that a datagram can do. -/
inductive OnData (S : Sodium) (r : Responder) (dg : Bytes) (src : Sockaddr) :
    Reply × Responder → Prop
  | drop : OnData S r dg src (.drop, r)
  | ok {pt : Bytes} {s : Session} : r.current.established = true →
      Accepted S r.current dg pt s →
      OnData S r dg src (.ok pt, { r with current := s, addr := src, have_addr := true })
  | promoted {pt : Bytes} {s : Session} : r.has_pending = true →
      Accepted S r.pending dg pt s →
      OnData S r dg src (.promoted pt,
        { current := s, committed_ts := r.pending_ts, addr := src, have_addr := true
          pending := .zero, pending_ts := 0, has_pending := false })

theorem on_data_cases (S : Sodium) (r : Responder) (dg : Bytes) (src : Sockaddr) (pt_cap : Nat) :
    OnData S r dg src (r.on_data S dg src pt_cap) := by
  rw [on_data]
  split_ifs with hlen hcurrent hpending
  · exact .drop
  · cases hdecrypt : data_decrypt S r.current dg pt_cap with
    | none => exact .drop
    | some opened =>
        obtain ⟨pt, s⟩ := opened
        exact .ok ((Bool.and_eq_true _ _).mp hcurrent).1 (data_decrypt_some hdecrypt)
  · cases hdecrypt : data_decrypt S r.pending dg pt_cap with
    | none => exact .drop
    | some opened =>
        obtain ⟨pt, s⟩ := opened
        exact .promoted ((Bool.and_eq_true _ _).mp hpending).1 (data_decrypt_some hdecrypt)
  · exact .drop

end Responder

/-! ## Runs -/

structure Config where
  my_static : Keypair
  peer_static_pk : Bytes

/-- A call, with what it reads of the clock and draws at random. -/
inductive Call
  | on_init (now : Nat) (r_eph msg1 : Bytes)
  | on_data (dg : Bytes) (src : Sockaddr) (pt_cap : Nat)
  | reset
deriving DecidableEq

/-- What a call returns. -/
inductive Outcome
  | refused
  | answered (msg2 : Bytes)
  | data (reply : Reply)
  | forgotten
deriving DecidableEq

def call (S : Sodium) (C : Config) (r : Responder) : Call → Outcome × Responder
  | .on_init now r_eph msg1 =>
      match r.on_init S now r_eph C.my_static C.peer_static_pk msg1 with
      | none => (.refused, r)
      | some (msg2, r') => (.answered msg2, r')
  | .on_data dg src pt_cap =>
      let (reply, r') := r.on_data S dg src pt_cap
      (.data reply, r')
  | .reset => (.forgotten, r.reset)

/-- The state after some calls, and the datagrams accepted in them. -/
structure History where
  responder : Responder := {}
  accepted : List Bytes := []

def Outcome.accepts : Outcome → Bool
  | .data (.ok _) => true
  | .data (.promoted _) => true
  | _ => false

def Call.datagrams : Call → List Bytes
  | .on_data dg _ _ => [dg]
  | _ => []

def History.step (S : Sodium) (C : Config) (h : History) (c : Call) : History :=
  let (outcome, r) := call S C h.responder c
  { responder := r
    accepted := if outcome.accepts then h.accepted ++ c.datagrams else h.accepted }

def run (S : Sodium) (C : Config) (calls : List Call) : History :=
  calls.foldl (History.step S C) {}

theorem run_concat (S : Sodium) (C : Config) (calls : List Call) (c : Call) :
    run S C (calls ++ [c]) = (run S C calls).step S C c := by
  rw [run, run, List.foldl_append, List.foldl_cons, List.foldl_nil]

/-- What a call can do: nothing, park a session, accept a datagram, or forget. -/
inductive Step (S : Sodium) (C : Config) (h : History) : Call → History → Prop
  | same {c : Call} : Step S C h c h
  | park {now ts : Nat} {r_eph msg1 msg2 : Bytes} {fresh : Session} {secrets : Secrets} :
      h.responder.owns (msg1_session_id msg1) = false →
      Responded S r_eph msg1 C.my_static C.peer_static_pk h.responder.committed_ts msg2 ts fresh
        secrets →
      Step S C h (.on_init now r_eph msg1)
        { h with responder :=
            { h.responder with pending := fresh, pending_ts := ts, has_pending := true } }
  | ok {dg pt : Bytes} {src : Sockaddr} {pt_cap : Nat} {s : Session} :
      h.responder.current.established = true → Accepted S h.responder.current dg pt s →
      Step S C h (.on_data dg src pt_cap)
        { responder := { h.responder with current := s, addr := src, have_addr := true }
          accepted := h.accepted ++ [dg] }
  | promoted {dg pt : Bytes} {src : Sockaddr} {pt_cap : Nat} {s : Session} :
      h.responder.has_pending = true → Accepted S h.responder.pending dg pt s →
      Step S C h (.on_data dg src pt_cap)
        { responder :=
            { current := s, committed_ts := h.responder.pending_ts, addr := src
              have_addr := true, pending := .zero, pending_ts := 0, has_pending := false }
          accepted := h.accepted ++ [dg] }
  | reset : Step S C h .reset { h with responder := h.responder.reset }

theorem step_cases (S : Sodium) (C : Config) (h : History) (c : Call) :
    Step S C h c (h.step S C c) := by
  cases c with
  | on_init now r_eph msg1 =>
      rw [History.step, call]
      cases hinit : h.responder.on_init S now r_eph C.my_static C.peer_static_pk msg1 with
      | none => exact .same
      | some answer =>
          obtain ⟨msg2, r'⟩ := answer
          obtain ⟨howns, ts, fresh, secrets, hresponded, rfl⟩ := Responder.on_init_some hinit
          exact .park howns hresponded
  | on_data dg src pt_cap =>
      rw [History.step, call]
      have hcases := Responder.on_data_cases S h.responder dg src pt_cap
      generalize h.responder.on_data S dg src pt_cap = result at hcases ⊢
      cases hcases with
      | drop => exact .same
      | ok hlive haccepted => exact .ok hlive haccepted
      | promoted hlive haccepted => exact .promoted hlive haccepted
  | reset => exact .reset

/-! ## The parked session -/

/-- What holds of the two sessions in every state. -/
structure Parked (r : Responder) : Prop where
  newer : r.has_pending = true → r.committed_ts < r.pending_ts
  apart : r.has_pending = true → r.current.established = true →
    r.pending.session_id ≠ r.current.session_id

theorem parked_initial : Parked {} where
  newer h := (Bool.false_ne_true h).elim
  apart h := (Bool.false_ne_true h).elim

theorem parked_step {S : Sodium} {C : Config} {h h' : History} {c : Call}
    (hstep : Step S C h c h') (hr : Parked h.responder) : Parked h'.responder := by
  cases hstep with
  | same => exact hr
  | park howns hresponded =>
      refine ⟨fun _ => hresponded.newer, fun _ hlive => ?_⟩
      rw [hresponded.parked]
      exact (Responder.not_owns howns).1 hlive
  | ok hlive haccepted =>
      refine ⟨hr.newer, fun hpending _ => ?_⟩
      rw [haccepted.session]
      exact hr.apart hpending hlive
  | promoted hpending haccepted =>
      exact ⟨fun h => (Bool.false_ne_true h).elim, fun h => (Bool.false_ne_true h).elim⟩
  | reset => exact ⟨fun h => (Bool.false_ne_true h).elim, fun h => (Bool.false_ne_true h).elim⟩

theorem parked_run (S : Sodium) (C : Config) (calls : List Call) :
    Parked (run S C calls).responder := by
  induction calls using List.reverseRecOn with
  | nil => exact parked_initial
  | append_singleton calls c ih =>
      rw [run_concat]
      exact parked_step (step_cases S C _ c) ih

/-- The call's datagram opens under the confirmed session or the parked one. -/
def Authenticates (S : Sodium) (r : Responder) (c : Call) : Prop :=
  ∃ dg ∈ c.datagrams, r.current.established = true ∧ r.current.Authentic S dg ∨
    r.has_pending = true ∧ r.pending.Authentic S dg

/-- What a call may change of the confirmed state. -/
structure Guarded (S : Sodium) (r : Responder) (c : Call) (r' : Responder) : Prop where
  /-- The confirmed session changes with an authentic datagram, or is forgotten. -/
  current : r'.current ≠ r.current → Authenticates S r c ∨ c = .reset ∧ r'.current = .zero
  /-- The peer's address and the committed timestamp change with an authentic
  datagram only. -/
  committed : (r'.addr, r'.have_addr, r'.committed_ts) ≠ (r.addr, r.have_addr, r.committed_ts) →
    Authenticates S r c
  monotone : r.committed_ts ≤ r'.committed_ts

theorem guarded_step {S : Sodium} {C : Config} {h h' : History} {c : Call}
    (hstep : Step S C h c h') (hr : Parked h.responder) :
    Guarded S h.responder c h'.responder := by
  cases hstep with
  | same => exact ⟨fun hne => absurd rfl hne, fun hne => absurd rfl hne, le_rfl⟩
  | park howns hresponded => exact ⟨fun hne => absurd rfl hne, fun hne => absurd rfl hne, le_rfl⟩
  | @ok dg _ src pt_cap _ hlive haccepted =>
      have hauth : Authenticates S h.responder (.on_data dg src pt_cap) :=
        ⟨_, List.mem_singleton_self _, .inl ⟨hlive, haccepted.authentic⟩⟩
      exact ⟨fun _ => .inl hauth, fun _ => hauth, le_rfl⟩
  | @promoted dg _ src pt_cap _ hpending haccepted =>
      have hauth : Authenticates S h.responder (.on_data dg src pt_cap) :=
        ⟨_, List.mem_singleton_self _, .inr ⟨hpending, haccepted.authentic⟩⟩
      exact ⟨fun _ => .inl hauth, fun _ => hauth, (hr.newer hpending).le⟩
  | reset => exact ⟨fun _ => .inr ⟨rfl, rfl⟩, fun hne => absurd rfl hne, le_rfl⟩

/-! ## What a run relies on -/

def Call.ephemerals : Call → List Bytes
  | .on_init _ r_eph _ => [r_eph]
  | _ => []

/-- The secrets that an answer to the call would have. -/
def Call.secrets (S : Sodium) (C : Config) : Call → List Secrets
  | .on_init _ r_eph msg1 => (respond_secrets S C.my_static r_eph msg1).toList
  | _ => []

/-- What is relied on of the primitives, on the inputs of a run: ephemeral keys
are drawn once, the exchange with the peer keeps them apart, the hash has no
collision, and a datagram opens under one key. -/
structure Ideal (S : Sodium) (C : Config) (calls : List Call) : Prop where
  fresh : calls.Pairwise fun c d => ∀ e ∈ c.ephemerals, ∀ e' ∈ d.ephemerals,
    S.scalarmult_base e ≠ S.scalarmult_base e'
  exchange : ∀ e ∈ calls.flatMap Call.ephemerals, ∀ e' ∈ calls.flatMap Call.ephemerals, ∀ k,
    S.scalarmult e C.peer_static_pk = some k → S.scalarmult e' C.peer_static_pk = some k →
      S.scalarmult_base e = S.scalarmult_base e'
  hash : CollisionFree S fun b => ∃ x ∈ calls.flatMap (Call.secrets S C), b ∈ x.hashed S
  aead : ∀ dg ∈ calls.flatMap Call.datagrams, ∀ x ∈ calls.flatMap (Call.secrets S C),
    ∀ y ∈ calls.flatMap (Call.secrets S C),
      (data_open S (x.derive_transport_keys S).i2r dg).isSome →
      (data_open S (y.derive_transport_keys S).i2r dg).isSome →
      (x.derive_transport_keys S).i2r = (y.derive_transport_keys S).i2r

theorem Ideal.before {S : Sodium} {C : Config} {calls : List Call} {c : Call}
    (h : Ideal S C (calls ++ [c])) : Ideal S C calls where
  fresh := (List.pairwise_append.mp h.fresh).1
  exchange e he e' he' := h.exchange e (by simp_all) e' (by simp_all)
  hash x y hx hy := by
    obtain ⟨z, hz, hxz⟩ := hx
    obtain ⟨w, hw, hyw⟩ := hy
    exact h.hash x y ⟨z, by simp_all, hxz⟩ ⟨w, by simp_all, hyw⟩
  aead dg hdg x hx y hy := h.aead dg (by simp_all) x (by simp_all) y (by simp_all)

/-- The key is the receiving one of an answer to the call. -/
structure MadeBy (S : Sodium) (C : Config) (c : Call) (key : Bytes) (e : Bytes) (x : Secrets) :
    Prop where
  ephemeral : e ∈ c.ephemerals
  secrets : x ∈ c.secrets S C
  wf : x.WF
  exchange : S.scalarmult e C.peer_static_pk = some x.dh2
  key : key = (x.derive_transport_keys S).i2r

/-- The key is of an answer to one of the calls. -/
def Made (S : Sodium) (C : Config) (calls : List Call) (key : Bytes) : Prop :=
  ∃ c ∈ calls, ∃ e x, MadeBy S C c key e x

variable {S : Sodium} {C : Config} {calls : List Call} {c : Call} {key : Bytes}

theorem Made.concat (h : Made S C calls key) (c : Call) : Made S C (calls ++ [c]) key := by
  obtain ⟨d, hd, hmade⟩ := h
  exact ⟨d, List.mem_append_left _ hd, hmade⟩

theorem madeBy_park {r : Responder} {now ts : Nat} {r_eph msg1 msg2 : Bytes} {fresh : Session}
    {secrets : Secrets} (h : Responded S r_eph msg1 C.my_static C.peer_static_pk r.committed_ts msg2
      ts fresh secrets) :
    MadeBy S C (.on_init now r_eph msg1) fresh.recv_key r_eph secrets where
  ephemeral := List.mem_singleton_self _
  secrets := by
    rw [Call.secrets, h.derived]
    exact List.mem_singleton_self _
  wf := h.wf
  exchange := by
    rw [← h.claimed]
    exact (respond_secrets_some h.derived).2.1
  key := by
    rw [h.parked]
    rfl

/-- The key of a new answer is none of the earlier ones. -/
theorem not_made {e : Bytes} {x : Secrets} (ideal : Ideal S C (calls ++ [c]))
    (hc : MadeBy S C c key e x) : ¬ Made S C calls key := by
  rintro ⟨d, hd, e', y, hy⟩
  have hmem : ∀ {α : Type} (f : Call → List α) {b : Call} {a : α}, b ∈ calls ++ [c] → a ∈ f b →
      a ∈ (calls ++ [c]).flatMap f := fun f _ _ hb ha => List.mem_flatMap.mpr ⟨_, hb, ha⟩
  have hd' : d ∈ calls ++ [c] := List.mem_append_left _ hd
  have hc' : c ∈ calls ++ [c] := List.mem_append_right _ (List.mem_singleton_self c)
  have hxy : y = x := by
    refine Secrets.eq_of_i2r ideal.hash (fun b hb => ⟨y, hmem _ hd' hy.secrets, hb⟩)
      (fun b hb => ⟨x, hmem _ hc' hc.secrets, hb⟩) hy.wf hc.wf (hy.key.symm.trans hc.key)
  have hbase : S.scalarmult_base e' = S.scalarmult_base e :=
    ideal.exchange e' (hmem _ hd' hy.ephemeral) e (hmem _ hc' hc.ephemeral) x.dh2
      (hxy ▸ hy.exchange) hc.exchange
  exact (List.pairwise_append.mp ideal.fresh).2.2 d hd c (List.mem_singleton_self c) e'
    hy.ephemeral e hc.ephemeral hbase

/-! ## No datagram is accepted twice -/

/-- The window of a session with this key is closed to the datagram. -/
def ClosedTo (s : Session) (live : Bool) (key dg : Bytes) : Prop :=
  live = true → s.recv_key = key → s.replay.precheck (datagram_counter dg) = false

/-- What the state remembers of the datagrams that were accepted. -/
structure Remembers (S : Sodium) (C : Config) (calls : List Call) (h : History) : Prop where
  current_wf : h.responder.current.replay.WF
  pending_wf : h.responder.pending.replay.WF
  current_made : h.responder.current.established = true →
    Made S C calls h.responder.current.recv_key
  pending_made : h.responder.has_pending = true → Made S C calls h.responder.pending.recv_key
  apart : h.responder.current.established = true → h.responder.has_pending = true →
    h.responder.pending.recv_key ≠ h.responder.current.recv_key
  closed : ∀ dg ∈ h.accepted, dg ∈ calls.flatMap Call.datagrams ∧ ∃ key, Made S C calls key ∧
    (data_open S key dg).isSome ∧
    ClosedTo h.responder.current h.responder.current.established key dg ∧
    ClosedTo h.responder.pending h.responder.has_pending key dg
  nodup : h.accepted.Nodup

theorem replay_wf_zero : Session.zero.replay.WF := List.length_replicate

theorem remembers_initial : Remembers S C [] {} where
  current_wf := replay_wf_zero
  pending_wf := replay_wf_zero
  current_made h := (Bool.false_ne_true h).elim
  pending_made h := (Bool.false_ne_true h).elim
  apart h := (Bool.false_ne_true h).elim
  closed _ h := (List.not_mem_nil h).elim
  nodup := List.nodup_nil

/-- What opens under a made key opens under no other. -/
theorem Made.unique {key' dg : Bytes} (ideal : Ideal S C calls) (h : Made S C calls key)
    (h' : Made S C calls key') (hdg : dg ∈ calls.flatMap Call.datagrams)
    (hopen : (data_open S key dg).isSome) (hopen' : (data_open S key' dg).isSome) : key = key' := by
  obtain ⟨c, hc, e, x, hx⟩ := h
  obtain ⟨d, hd, e', y, hy⟩ := h'
  rw [hx.key] at hopen ⊢
  rw [hy.key] at hopen' ⊢
  exact ideal.aead dg hdg x (List.mem_flatMap.mpr ⟨c, hc, hx.secrets⟩) y
    (List.mem_flatMap.mpr ⟨d, hd, hy.secrets⟩) hopen hopen'

theorem Accepted.recv_key {s s' : Session} {dg pt : Bytes} (h : Accepted S s dg pt s') :
    s'.recv_key = s.recv_key := by
  rw [h.session]
  rfl

theorem Accepted.wf {s s' : Session} {dg pt : Bytes} (h : Accepted S s dg pt s')
    (hs : s.replay.WF) : s'.replay.WF := by
  rw [h.session]
  exact Replay.wf_accept hs _

/-- The window of the session is closed to the accepted datagram, and to what
it was closed to. -/
theorem Accepted.closedTo {s s' : Session} {dg pt d : Bytes} {live live' : Bool}
    (h : Accepted S s dg pt s') (hs : s.replay.WF) (hlive : live = true)
    (hd : d = dg ∨ ClosedTo s live key d) : ClosedTo s' live' key d := by
  intro _ hkey
  rw [h.session]
  refine Replay.precheck_accept hs h.fresh ?_
  rcases hd with rfl | hd
  · exact .inl rfl
  · exact .inr (hd hlive (h.recv_key.symm.trans hkey))

/-- The accepted datagram is new. -/
theorem Remembers.not_mem {h : History} {s s' : Session} {dg pt : Bytes} {live : Bool}
    (ideal : Ideal S C calls) (hr : Remembers S C calls h)
    (hlive : live = true) (hmade : Made S C calls s.recv_key)
    (hclosed : ∀ key, ClosedTo h.responder.current h.responder.current.established key dg →
      ClosedTo h.responder.pending h.responder.has_pending key dg → ClosedTo s live key dg)
    (haccepted : Accepted S s dg pt s') : dg ∉ h.accepted := by
  intro hmem
  obtain ⟨hdg, key, hkey, hopen, hcurrent, hpending⟩ := hr.closed dg hmem
  have heq : s.recv_key = key := hmade.unique ideal hkey hdg
    (Option.isSome_iff_exists.mpr ⟨pt, haccepted.opened⟩) hopen
  have hno := hclosed key hcurrent hpending hlive heq
  exact Bool.false_ne_true (hno.symm.trans haccepted.fresh)

theorem remembers_concat {h : History} (hr : Remembers S C calls h) (c : Call) :
    Remembers S C (calls ++ [c]) h where
  current_wf := hr.current_wf
  pending_wf := hr.pending_wf
  current_made hlive := (hr.current_made hlive).concat c
  pending_made hlive := (hr.pending_made hlive).concat c
  apart := hr.apart
  closed dg hdg := by
    obtain ⟨hmem, key, hkey, hrest⟩ := hr.closed dg hdg
    exact ⟨by simp_all, key, hkey.concat c, hrest⟩
  nodup := hr.nodup

theorem nodup_concat {l : List Bytes} {dg : Bytes} (h : l.Nodup) (hnew : dg ∉ l) :
    (l ++ [dg]).Nodup :=
  List.nodup_append.mpr ⟨h, List.nodup_singleton dg, fun _ ha _ hb heq =>
    hnew (List.mem_singleton.mp hb ▸ heq ▸ ha)⟩

theorem remembers_step {h h' : History} (ideal : Ideal S C (calls ++ [c]))
    (hstep : Step S C h c h') (hr : Remembers S C calls h) :
    Remembers S C (calls ++ [c]) h' := by
  have hr' := remembers_concat hr c
  cases hstep with
  | same => exact hr'
  | @park now ts r_eph msg1 msg2 fresh secrets howns hresponded =>
      have hmade : MadeBy S C (.on_init now r_eph msg1) fresh.recv_key r_eph secrets :=
        madeBy_park hresponded
      have hnew := not_made ideal hmade
      refine ⟨hr'.current_wf, ?_, hr'.current_made, ?_, ?_, ?_, hr'.nodup⟩
      · rw [hresponded.parked]
        exact replay_wf_zero
      · exact fun _ => ⟨_, List.mem_append_right _ (List.mem_singleton_self _), r_eph, secrets, hmade⟩
      · intro hlive _ heq
        have hkey : fresh.recv_key = h.responder.current.recv_key := heq
        exact hnew (hkey ▸ hr.current_made hlive)
      · intro dg hdg
        obtain ⟨hmem, key, hkey, hopen, hcurrent, -⟩ := hr.closed dg hdg
        refine ⟨by simp_all, key, hkey.concat _, hopen, hcurrent, fun _ heq => ?_⟩
        have hkey' : fresh.recv_key = key := heq
        exact absurd (hkey' ▸ hkey) hnew
  | @ok dg pt src pt_cap s hlive haccepted =>
      have hdg : dg ∈ (calls ++ [Call.on_data dg src pt_cap]).flatMap Call.datagrams := by
        simp [Call.datagrams]
      have hnew : dg ∉ h.accepted := hr'.not_mem ideal hlive
        (hr'.current_made hlive) (fun _ hcurrent _ => hcurrent) haccepted
      refine ⟨haccepted.wf hr.current_wf, hr.pending_wf, fun _ => ?_, hr'.pending_made, ?_, ?_,
        nodup_concat hr.nodup hnew⟩
      · exact haccepted.recv_key ▸ hr'.current_made hlive
      · intro _ hpending heq
        exact hr.apart hlive hpending (heq.trans haccepted.recv_key)
      · intro d hd
        rcases List.mem_append.mp hd with hold | hnow
        · obtain ⟨hmem, key, hkey, hopen, hcurrent, hpending⟩ := hr'.closed d hold
          exact ⟨hmem, key, hkey, hopen,
            haccepted.closedTo hr.current_wf hlive (.inr hcurrent), hpending⟩
        · obtain rfl := List.mem_singleton.mp hnow
          refine ⟨hdg, h.responder.current.recv_key, hr'.current_made hlive,
            Option.isSome_iff_exists.mpr ⟨pt, haccepted.opened⟩,
            haccepted.closedTo hr.current_wf hlive (.inl rfl), fun hpending heq => ?_⟩
          exact absurd heq (hr.apart hlive hpending)
  | @promoted dg pt src pt_cap s hpending haccepted =>
      have hdg : dg ∈ (calls ++ [Call.on_data dg src pt_cap]).flatMap Call.datagrams := by
        simp [Call.datagrams]
      have hnew : dg ∉ h.accepted := hr'.not_mem ideal hpending
        (hr'.pending_made hpending) (fun _ _ hclosed => hclosed) haccepted
      refine ⟨haccepted.wf hr.pending_wf, replay_wf_zero, fun _ => ?_, ?_, ?_, ?_,
        nodup_concat hr.nodup hnew⟩
      · exact haccepted.recv_key ▸ hr'.pending_made hpending
      · exact fun h => (Bool.false_ne_true h).elim
      · exact fun _ h => (Bool.false_ne_true h).elim
      · intro d hd
        rcases List.mem_append.mp hd with hold | hnow
        · obtain ⟨hmem, key, hkey, hopen, -, hclosed⟩ := hr'.closed d hold
          exact ⟨hmem, key, hkey, hopen,
            haccepted.closedTo hr.pending_wf hpending (.inr hclosed),
            fun h => (Bool.false_ne_true h).elim⟩
        · obtain rfl := List.mem_singleton.mp hnow
          exact ⟨hdg, h.responder.pending.recv_key, hr'.pending_made hpending,
            Option.isSome_iff_exists.mpr ⟨pt, haccepted.opened⟩,
            haccepted.closedTo hr.pending_wf hpending (.inl rfl),
            fun h => (Bool.false_ne_true h).elim⟩
  | reset =>
      refine ⟨replay_wf_zero, replay_wf_zero, fun h => (Bool.false_ne_true h).elim,
        fun h => (Bool.false_ne_true h).elim, fun h => (Bool.false_ne_true h).elim, ?_, hr.nodup⟩
      intro d hd
      obtain ⟨hmem, key, hkey, hopen, -⟩ := hr'.closed d hd
      exact ⟨hmem, key, hkey, hopen, fun h => (Bool.false_ne_true h).elim,
        fun h => (Bool.false_ne_true h).elim⟩

theorem remembers_run (ideal : Ideal S C calls) : Remembers S C calls (run S C calls) := by
  induction calls using List.reverseRecOn with
  | nil => exact remembers_initial
  | append_singleton calls c ih =>
      rw [run_concat]
      exact remembers_step ideal (step_cases S C _ c) (ih ideal.before)

/-! ## Confirm before swap -/

theorem promoted_of_call {r : Responder} {pt : Bytes}
    (h : (call S C r c).1 = .data (.promoted pt)) :
    r.has_pending = true ∧ (call S C r c).2.committed_ts = r.pending_ts := by
  cases c with
  | on_init now r_eph msg1 =>
      rw [call] at h
      cases hinit : r.on_init S now r_eph C.my_static C.peer_static_pk msg1 with
      | none => rw [hinit] at h; cases h
      | some answer => rw [hinit] at h; cases h
  | on_data dg src pt_cap =>
      rw [call] at h ⊢
      have hcases := Responder.on_data_cases S r dg src pt_cap
      generalize r.on_data S dg src pt_cap = result at hcases h ⊢
      cases hcases with
      | drop => cases h
      | ok hlive haccepted => cases h
      | promoted hlive haccepted => exact ⟨hlive, rfl⟩
  | reset => cases h

/-- In every state that calls lead to: a call changes the confirmed state with
an authentic datagram only, or forgets the session in a reset; the committed
timestamp rises with every promotion; the parked session is newer than it, and
is another session; and no datagram has been accepted twice. -/
theorem confirm_before_swap (S : Sodium) (C : Config) (calls : List Call) :
    (∀ c, Guarded S (run S C calls).responder c (call S C (run S C calls).responder c).2) ∧
    (∀ c pt, (call S C (run S C calls).responder c).1 = .data (.promoted pt) →
      (run S C calls).responder.committed_ts <
        (call S C (run S C calls).responder c).2.committed_ts) ∧
    Parked (run S C calls).responder ∧
    (Ideal S C calls → (run S C calls).accepted.Nodup) := by
  have hparked := parked_run S C calls
  refine ⟨fun c => ?_, fun c pt hpromoted => ?_, hparked, fun ideal => (remembers_run ideal).nodup⟩
  · exact guarded_step (step_cases S C (run S C calls) c) hparked
  · obtain ⟨hpending, hts⟩ := promoted_of_call hpromoted
    rw [hts]
    exact hparked.newer hpending

namespace Sample

def server : Keypair := keypair_generate .sample [11, 7]
def client : Keypair := keypair_generate .sample [5, 3]
def config : Config := ⟨server, client.pk⟩

/-- Message 1 of the client, of the byte it draws. -/
def message (eph : UInt8) : HandshakeState × Bytes :=
  handshake_init_create .sample [eph, 1] (List.replicate 8 eph) 1000 client server.pk

/-- The server's answer to it. -/
def answer (eph r_eph : UInt8) : Bytes :=
  ((handshake_respond .sample 1000 [r_eph] (message eph).2 server client.pk 0).map Prod.fst).getD []

/-- The client's session, once the server has answered. -/
def session (eph r_eph : UInt8) : Session :=
  (handshake_finish .sample (message eph).1 (answer eph r_eph) client server.pk).getD .zero

/-- A datagram of the client. -/
def datagram (s : Session) (type : UInt8) (pt : Bytes) : Bytes :=
  ((data_encrypt .sample s type pt).map Prod.fst).getD []

/-- Its first keepalive. -/
def keepalive (eph r_eph : UInt8) : Bytes := datagram (session eph r_eph) SDTP_MSG_KEEPALIVE []

/-- The client starts twice, confirms the second session, and the keepalive is
sent again by somebody else. -/
def sampleCalls : List Call :=
  [.on_init 1000 [21] (message 2).2, .on_init 1000 [22] (message 3).2,
    .on_data (keepalive 3 22) { sin_port := 9 } SDTP_MTU,
    .on_data (keepalive 3 22) { sin_port := 66 } SDTP_MTU]

theorem ideal_sample : Ideal .sample config sampleCalls where
  fresh := by decide +kernel
  exchange e he e' he' k hk hk' := by
    have hapart : ∀ e ∈ sampleCalls.flatMap Call.ephemerals,
        ∀ e' ∈ sampleCalls.flatMap Call.ephemerals,
        Sodium.sample.scalarmult e config.peer_static_pk =
          Sodium.sample.scalarmult e' config.peer_static_pk →
        Sodium.sample.scalarmult_base e = Sodium.sample.scalarmult_base e' := by decide +kernel
    exact hapart e he e' he' (hk.trans hk'.symm)
  hash x y hx hy hxy := by
    have hapart : ∀ x ∈ (sampleCalls.flatMap (Call.secrets .sample config)).flatMap
          (Secrets.hashed .sample),
        ∀ y ∈ (sampleCalls.flatMap (Call.secrets .sample config)).flatMap (Secrets.hashed .sample),
        Sodium.sample.generichash 32 x [] = Sodium.sample.generichash 32 y [] → x = y := by
      decide +kernel
    exact hapart x (List.mem_flatMap.mpr hx) y (List.mem_flatMap.mpr hy) hxy
  aead := by decide +kernel

end Sample

open Sample in
theorem confirm_before_swap_sample :
    (run .sample config sampleCalls).accepted = [keepalive 3 22] ∧
    (run .sample config sampleCalls).accepted.Nodup :=
  ⟨by decide +kernel, (confirm_before_swap .sample config sampleCalls).2.2.2 ideal_sample⟩

open Sample in
/-- A reset changes the confirmed session, and has no datagram. -/
theorem reset_changes_confirmed :
    (call .sample config (run .sample config sampleCalls).responder .reset).2.current ≠
      (run .sample config sampleCalls).responder.current ∧
    ¬ Authenticates .sample (run .sample config sampleCalls).responder .reset := by
  constructor
  · intro heq
    have hlive : (run .sample config sampleCalls).responder.current.established = true := by
      decide +kernel
    rw [← heq] at hlive
    exact Bool.false_ne_true hlive
  · rintro ⟨dg, hdg, -⟩
    exact List.not_mem_nil hdg

end Secdogie.Tunnel
