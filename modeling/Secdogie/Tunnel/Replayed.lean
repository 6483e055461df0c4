/-
# `Secdogie.Tunnel.Replayed` — which datagrams a session accepts

Of the datagrams that authenticate, a session accepts those whose counter is
new and less than a window behind the highest it has accepted; the first is
always accepted.  The shifted bytes are that set, after every datagram
(`accepts_iff`).
-/
import Secdogie.Tunnel.Session

namespace Secdogie.Tunnel

open SlidingWindow Secdogie.Transport

namespace Replay

variable {w : Replay} {admitted : Finset Nat} {counter : Nat}

/-- What was accepted, as the bytes show it. -/
structure Holds (w : Replay) (admitted : Finset Nat) : Prop where
  wf : w.WF
  initialized : w.recv_initialized = true ↔ admitted.Nonempty
  highest : w.recv_initialized = true → w.recv_highest ∈ admitted ∧ ∀ a ∈ admitted, a ≤ w.recv_highest
  bits : w.recv_initialized = true → ∀ i, i < SDTP_REPLAY_WINDOW_BITS →
    (w.replay_bitmap.bit i = true ↔ i ≤ w.recv_highest ∧ w.recv_highest - i ∈ admitted)

/-- The bytes stand for a window that shows the set. -/
theorem holds_iff (h : w.WF) : w.Holds admitted ↔ w.window.Shows admitted := by
  have hstands := stands_window h
  cases hinit : w.recv_initialized with
  | false =>
      have hnone : w.window.highest = none := by rw [hstands.highest, hinit]; rfl
      constructor
      · intro hh
        refine ⟨fun _ => ?_, fun _ heq => ?_, fun _ heq => ?_⟩
        · refine Finset.not_nonempty_iff_eq_empty.mp fun hne => ?_
          exact Bool.false_ne_true (hinit.symm.trans (hh.initialized.mpr hne))
        · exact nomatch hnone.symm.trans heq
        · exact nomatch hnone.symm.trans heq
      · intro hs
        refine ⟨h, ?_, fun hi => ?_, fun hi => ?_⟩
        · rw [hs.nothing hnone, hinit]
          exact iff_of_false Bool.false_ne_true Finset.not_nonempty_empty
        · exact absurd (hinit.symm.trans hi) Bool.false_ne_true
        · exact absurd (hinit.symm.trans hi) Bool.false_ne_true
  | true =>
      have hsome : w.window.highest = some w.recv_highest := by rw [hstands.highest, hinit]; rfl
      constructor
      · intro hh
        refine ⟨fun hnone => (nomatch hsome.symm.trans hnone), fun h' heq => ?_, fun h' heq i hi => ?_⟩
        · obtain rfl := Option.some.inj (hsome.symm.trans heq)
          exact hh.highest hinit
        · obtain rfl := Option.some.inj (hsome.symm.trans heq)
          rw [← hstands.bits hinit i hi]
          exact hh.bits hinit i hi
      · intro hs
        obtain ⟨hmem, hmax⟩ := hs.highest _ hsome
        refine ⟨h, iff_of_true hinit ⟨_, hmem⟩, fun _ => ⟨hmem, hmax⟩, fun _ i hi => ?_⟩
        rw [hstands.bits hinit i hi]
        exact hs.bits _ hsome i hi

theorem Holds.precheck_iff (h : w.Holds admitted) :
    w.precheck counter = true ↔ Admits SDTP_REPLAY_WINDOW_BITS admitted counter := by
  rw [precheck_eq (stands_window h.wf)]
  exact ReplayWindow.accept_iff ((holds_iff h.wf).mp h)

/-- Two windows that the same bytes stand for show the same. -/
theorem shows_of_stands {v v' : ReplayWindow} (h : w.Stands v) (h' : w.Stands v')
    (hs : v.Shows admitted) : v'.Shows admitted := by
  have hhighest : v'.highest = v.highest := h'.highest.trans h.highest.symm
  refine ⟨fun hnone => hs.nothing (hhighest ▸ hnone), fun n hn => hs.highest n (hhighest ▸ hn),
    fun n hn i hi => ?_⟩
  have hinit : w.recv_initialized = true := by
    rw [h'.highest] at hn
    by_contra hne
    rw [if_neg hne] at hn
    exact nomatch hn
  rw [h'.size] at hi
  rw [← h'.bits hinit i hi, h.bits hinit i hi]
  exact hs.bits n (hhighest ▸ hn) i (by rw [h.size]; exact hi)

theorem Holds.accept (h : w.Holds admitted) (hpass : w.precheck counter = true) :
    (w.accept counter).Holds (insert counter admitted) := by
  have hstands := stands_window h.wf
  have hadmits := h.precheck_iff.mp hpass
  have hshows := (ReplayWindow.shows_accept ((holds_iff h.wf).mp h) counter).2
  have hsize : w.window.size = SDTP_REPLAY_WINDOW_BITS := hstands.size
  rw [hsize, admitting, if_pos hadmits] at hshows
  have hnext := stands_accept hstands hpass
  exact (holds_iff hnext.wf).mpr (shows_of_stands hnext (stands_window hnext.wf) hshows)

/-- Before the first counter, whatever the bytes are. -/
theorem holds_empty (hbytes : w.WF) (hinit : w.recv_initialized = false) : w.Holds ∅ where
  wf := hbytes
  initialized := by
    rw [hinit]
    exact iff_of_false Bool.false_ne_true Finset.not_nonempty_empty
  highest hi := absurd (hinit.symm.trans hi) Bool.false_ne_true
  bits hi := absurd (hinit.symm.trans hi) Bool.false_ne_true

end Replay

/-! ## Datagrams in a row -/

/-- The datagram authenticates under the session, and there is room for what it carries. -/
structure Genuine (S : Sodium) (pt_cap : Nat) (s : Session) (dg : Bytes) : Prop where
  length : SDTP_DATA_HDR_LEN + SDTP_AEAD_TAG_LEN ≤ dg.length
  type : dg.getD 0 0 = SDTP_MSG_DATA ∨ dg.getD 0 0 = SDTP_MSG_KEEPALIVE
  session_id : datagram_id dg = s.session_id
  opened : (data_open S s.recv_key dg).isSome
  room : dg.length - SDTP_DATA_HDR_LEN - SDTP_AEAD_TAG_LEN ≤ pt_cap

/-- The session after a datagram. -/
def receive (S : Sodium) (pt_cap : Nat) (s : Session) (dg : Bytes) : Session :=
  ((data_decrypt S s dg pt_cap).map Prod.snd).getD s

variable {S : Sodium} {pt_cap : Nat} {s : Session} {dg : Bytes}

/-- All that is left to decide is the counter. -/
theorem Genuine.decrypt (h : Genuine S pt_cap s dg) : ∃ pt, data_decrypt S s dg pt_cap =
    if s.replay.precheck (datagram_counter dg) = true then
      some (pt, { s with replay := s.replay.accept (datagram_counter dg) }) else none := by
  obtain ⟨pt, hopen⟩ := Option.isSome_iff_exists.mp h.opened
  refine ⟨pt, ?_⟩
  rw [data_decrypt, if_neg (not_lt.mpr h.length),
    if_neg (fun hne => h.type.elim hne.1 hne.2), if_neg (not_not.mpr h.session_id)]
  cases hpass : s.replay.precheck (datagram_counter dg) with
  | false => rfl
  | true => rw [if_neg Bool.true_eq_false.mp, if_neg (not_lt.mpr h.room), hopen, if_pos rfl]

theorem Genuine.accepted_iff (h : Genuine S pt_cap s dg) :
    (data_decrypt S s dg pt_cap).isSome ↔ s.replay.precheck (datagram_counter dg) = true := by
  obtain ⟨pt, heq⟩ := h.decrypt
  rw [heq]
  split_ifs with hpass
  · exact iff_of_true rfl hpass
  · exact iff_of_false Bool.false_ne_true hpass

theorem Genuine.receive (h : Genuine S pt_cap s dg) : receive S pt_cap s dg =
    if s.replay.precheck (datagram_counter dg) = true then
      { s with replay := s.replay.accept (datagram_counter dg) } else s := by
  obtain ⟨pt, heq⟩ := h.decrypt
  rw [Tunnel.receive, heq]
  split_ifs
  · rfl
  · rfl

theorem Genuine.congr {s' : Session} (h : Genuine S pt_cap s dg) (hid : s'.session_id = s.session_id)
    (hkey : s'.recv_key = s.recv_key) : Genuine S pt_cap s' dg :=
  ⟨h.length, h.type, h.session_id.trans hid.symm, by rw [hkey]; exact h.opened, h.room⟩

/-- What a genuine datagram does to the session. -/
theorem Genuine.step {admitted : Finset Nat} (h : Genuine S pt_cap s dg)
    (hholds : s.replay.Holds admitted) :
    (Tunnel.receive S pt_cap s dg).replay.Holds
        (admitting SDTP_REPLAY_WINDOW_BITS admitted (datagram_counter dg)) ∧
      (Tunnel.receive S pt_cap s dg).session_id = s.session_id ∧
      (Tunnel.receive S pt_cap s dg).recv_key = s.recv_key := by
  rw [h.receive, admitting]
  by_cases hpass : s.replay.precheck (datagram_counter dg) = true
  · rw [if_pos hpass, if_pos (hholds.precheck_iff.mp hpass)]
    exact ⟨hholds.accept hpass, rfl, rfl⟩
  · rw [if_neg hpass, if_neg fun hadmits => hpass (hholds.precheck_iff.mpr hadmits)]
    exact ⟨hholds, rfl, rfl⟩

theorem holds_receive : ∀ {dgs : List Bytes} {s : Session} {admitted : Finset Nat},
    s.replay.Holds admitted → (∀ dg ∈ dgs, Genuine S pt_cap s dg) →
    (dgs.foldl (receive S pt_cap) s).replay.Holds
        ((dgs.map datagram_counter).foldl (admitting SDTP_REPLAY_WINDOW_BITS) admitted) ∧
      (dgs.foldl (receive S pt_cap) s).session_id = s.session_id ∧
      (dgs.foldl (receive S pt_cap) s).recv_key = s.recv_key
  | [], _, _, hholds, _ => ⟨hholds, rfl, rfl⟩
  | dg :: dgs, s, admitted, hholds, hgenuine => by
      obtain ⟨hstep, hid, hkey⟩ := (hgenuine dg List.mem_cons_self).step hholds
      obtain ⟨hrun, hid', hkey'⟩ := holds_receive hstep fun dg' hdg' =>
        (hgenuine dg' (List.mem_cons_of_mem dg hdg')).congr hid hkey
      exact ⟨hrun, hid'.trans hid, hkey'.trans hkey⟩

/-- After any datagrams that authenticate, in any order, one that authenticates is accepted just
when its counter is new and above the highest accepted one less the window; and the bytes are the
set of the accepted ones. -/
theorem accepts_iff (S : Sodium) (pt_cap : Nat) (s : Session)
    (hbytes : s.replay.replay_bitmap.length = REPLAY_BYTES)
    (hfirst : s.replay.recv_initialized = false) (dgs : List Bytes)
    (hgenuine : ∀ dg ∈ dgs, Genuine S pt_cap s dg) :
    let accepted := (dgs.map datagram_counter).foldl (admitting SDTP_REPLAY_WINDOW_BITS) ∅
    let s' := dgs.foldl (receive S pt_cap) s
    (∀ dg, Genuine S pt_cap s dg → ((data_decrypt S s' dg pt_cap).isSome ↔
      datagram_counter dg ∉ accepted ∧
        ∀ a ∈ accepted, a < datagram_counter dg + SDTP_REPLAY_WINDOW_BITS)) ∧
    s'.replay.Holds accepted := by
  intro accepted s'
  obtain ⟨hholds, hid, hkey⟩ := holds_receive (Replay.holds_empty hbytes hfirst) hgenuine
  refine ⟨fun dg hdg => ?_, hholds⟩
  rw [(hdg.congr hid hkey).accepted_iff]
  exact hholds.precheck_iff

/-! ## What the sender makes -/

/-- A datagram of the session with any counter, as the other end seals it. -/
def sealed (S : Sodium) (s : Session) (counter : Nat) (pt : Bytes) : Bytes :=
  let header := data_header SDTP_MSG_DATA s.session_id counter
  header ++ S.aead_encrypt pt header (build_nonce counter) s.recv_key

theorem genuine_sealed {counter : Nat} {pt : Bytes}
    (hid : s.session_id.length = SDTP_SESSION_ID_LEN) (hcounter : counter ≤ UINT64_MAX)
    (hcap : pt.length ≤ pt_cap) : Genuine S pt_cap s (sealed S s counter pt) := by
  have hheader := length_data_header SDTP_MSG_DATA counter hid
  have hlength : (sealed S s counter pt).length =
      SDTP_DATA_HDR_LEN + (pt.length + SDTP_AEAD_TAG_LEN) := by
    rw [sealed, List.length_append, hheader, S.length_encrypt]
  obtain ⟨hdid, hctr⟩ := data_header_fields SDTP_MSG_DATA
    (S.aead_encrypt pt (data_header SDTP_MSG_DATA s.session_id counter) (build_nonce counter)
      s.recv_key) hid hcounter
  refine ⟨by omega, .inl rfl, hdid, ?_, by omega⟩
  rw [data_open, show datagram_counter (sealed S s counter pt) = counter from hctr, sealed,
    List.drop_left' hheader, List.take_left' hheader, S.decrypt_encrypt]
  rfl

/-- One that jumps past the window, one far below it, the same once more. -/
theorem accepts_iff_sample :
    let dgs := [3, 2060, 12, 13, 13].map fun counter => sealed .sample {} counter [7]
    let accepted := (dgs.map datagram_counter).foldl (admitting SDTP_REPLAY_WINDOW_BITS) ∅
    let s' := dgs.foldl (receive .sample 1) {}
    (∀ dg, Genuine .sample 1 {} dg → ((data_decrypt .sample s' dg 1).isSome ↔
      datagram_counter dg ∉ accepted ∧
        ∀ a ∈ accepted, a < datagram_counter dg + SDTP_REPLAY_WINDOW_BITS)) ∧
    s'.replay.Holds accepted :=
  accepts_iff .sample 1 {} List.length_replicate rfl _ fun dg hdg => by
    obtain ⟨counter, hmem, rfl⟩ := List.mem_map.mp hdg
    refine genuine_sealed List.length_replicate ?_ le_rfl
    have hall : ∀ n ∈ [3, 2060, 12, 13, 13], n ≤ UINT64_MAX := by decide
    exact hall counter hmem

end Secdogie.Tunnel
