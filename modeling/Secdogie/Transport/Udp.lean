/-
# `Secdogie.Transport.Udp` — frames on two paths, one window

A frame reaches a node as a datagram of its peer, or inside a datagram of a
relay that the node holds a lease with.  Both paths check the same things and
share the replay window of the frame's signer; only the direct one may move
the endpoint at which the node reaches the signer.

`at_most_once` is about the whole life of a transport: the datagrams come from
anybody, in any order and as often as they like, and the node's own calls are
made in between.
-/
import Secdogie.Lib.StrMap
import Secdogie.Identity.Policy
import Secdogie.Transport.ReplayWindow

namespace Secdogie.Transport

open Secdogie.Graph Secdogie.Identity

def FRAME_TYPE : String := "secdogie/direct/v1"
def SEALED_TYPE : String := "secdogie/direct/v2"
def RELAY_ACK : String := "secdogie/relay/register-ack/v1"
def RELAY_DELIVER : String := "secdogie/relay/deliver/v1"

/-- What is fixed when a transport is made. -/
structure Local (F B : Type) where
  C : Crypto
  /-- `json.loads` of bytes -/
  loads : List UInt8 → Loaded F
  did : String
  /-- the node has a transport key -/
  encrypted : Bool
  /-- `Box.decrypt` -/
  decrypt : B → List UInt8 → Option (List UInt8)

/-- Who is given the envelopes of a type instead of the direct path. -/
inductive Handler where
  /-- `RelayClient._on_deliver` -/
  | deliver
  /-- one that opens no frames -/
  | other

/-- A frame that was opened, and whether it was given to a callback. -/
structure Accepted where
  direct : Bool
  signer : String
  ctr : Nat
  message : List UInt8
  handed : Bool

structure UdpState (A B : Type) where
  trust : String → Bool
  /-- peer DID to its box -/
  boxes : StrMap B := ∅
  windows : StrMap ReplayWindow := ∅
  endpoints : StrMap A := ∅
  handlers : StrMap Handler := ∅
  /-- the relays that were asked for a lease -/
  leases : StrSet := ∅
  inbound : Bool := false
  deliver : Bool := false
  /-- newest first -/
  accepted : List Accepted := []

section

variable {F A B : Type} [FloatCodec F] (N : Local F B)

/-- The object that the bytes are; `none` also when reading them raises, as
nothing comes of the datagram then. -/
def parseObject (raw : List UInt8) : Option (Value F) :=
  match N.loads raw with
  | .value (.obj m) => some (.obj m)
  | _ => none

/-- The signer of an envelope addressed to this node by somebody trusted. -/
def authentic (trust : String → Bool) (obj : Value F) : Option String :=
  match verifyPayload N.C trust obj with
  | (true, some signer) =>
      if textField obj "from" = some signer ∧ textField obj "to" = some N.did then some signer
      else none
  | _ => none

def counter (obj : Value F) : Option Nat :=
  match field obj "ctr" with
  | some (.int n) => if 0 ≤ n then some n.toNat else none
  | _ => none

def bytesField (obj : Value F) (k : String) : Option (List UInt8) :=
  (textField obj k).bind N.C.b64decode

structure Frame where
  signer : String
  ctr : Nat
  message : List UInt8

def decode_frame (trust : String → Bool) (raw : List UInt8) : Option Frame :=
  match parseObject N raw with
  | none => none
  | some obj =>
      if textField obj "t" ≠ some FRAME_TYPE then none
      else
        match authentic N trust obj, counter obj, bytesField N obj "data" with
        | some signer, some ctr, some message => some ⟨signer, ctr, message⟩
        | _, _, _ => none

/-- Splits what was sealed at its first line break and reads the header. -/
def readSealed (signer : String) (plain : List UInt8) : Option Frame :=
  match plain.dropWhile (· ≠ 10) with
  | [] => none
  | _ :: message =>
      match parseObject N (plain.takeWhile (· ≠ 10)) with
      | none => none
      | some header =>
          if textField header "from" = some signer ∧ textField header "to" = some N.did then
            (counter header).map (fun ctr => ⟨signer, ctr, message⟩)
          else none

def open_sealed (trust : String → Bool) (box_for : String → Option B) (raw : List UInt8) :
    Option Frame :=
  match parseObject N raw with
  | none => none
  | some obj =>
      if textField obj "t" ≠ some SEALED_TYPE then none
      else
        match authentic N trust obj with
        | none => none
        | some signer =>
            match box_for signer, bytesField N obj "ct" with
            | some box, some ct => (N.decrypt box ct).bind (readSealed N signer)
            | _, _ => none

variable (s : UdpState A B)

def window (did : String) : ReplayWindow := s.windows.getD did {}

/-- `_open`: a fresh frame, signed by `expect` when that is given, and whether
it has raised the signer's highest counter. -/
def openFrame (expect : Option String) (raw : List UInt8) : Option (Frame × Bool) × UdpState A B :=
  let opened :=
    if N.encrypted then open_sealed N s.trust (fun did => s.boxes[did]?) raw
    else decode_frame N s.trust raw
  match opened with
  | none => (none, s)
  | some f =>
      if expect.any (· ≠ f.signer) then (none, s)
      else
        let before := (window s f.signer).highest
        let r := (window s f.signer).accept f.ctr
        let s' := { s with windows := s.windows.insert f.signer r.2 }
        if r.1 then (some (f, before.all (· < f.ctr)), s') else (none, s')

/-- Roaming: a frame that raised the counter moves the endpoint, and so does
one whose signer has none. -/
def adopt (endpoints : StrMap A) (newest : Bool) (signer : String) (addr : A) : StrMap A :=
  if newest ∨ signer ∉ endpoints then endpoints.insert signer addr else endpoints

/-- The direct path. -/
def onDirect (raw : List UInt8) (addr : A) : UdpState A B :=
  match openFrame N s none raw with
  | (none, s') => s'
  | (some (f, newest), s') =>
      { s' with
        endpoints := adopt s'.endpoints newest f.signer addr
        accepted := ⟨true, f.signer, f.ctr, f.message, s'.inbound⟩ :: s'.accepted }

/-- `open_relayed` and what the relay client does with its result. -/
def openRelayed (frame : List UInt8) (sender : String) : UdpState A B :=
  if sender = "" then s
  else
    match openFrame N s (some sender) frame with
    | (none, s') => s'
    | (some (f, _), s') =>
        { s' with accepted := ⟨false, f.signer, f.ctr, f.message, s'.deliver⟩ :: s'.accepted }

/-- The relayed path: from relays that were asked to serve this node. -/
def on_deliver (obj : Value F) : UdpState A B :=
  match authentic N s.trust obj with
  | none => s
  | some signer =>
      if signer ∉ s.leases then s
      else
        match bytesField N obj "inner", textField obj "src" with
        | some frame, some sender => openRelayed N s frame sender
        | _, _ => s

/-- The handler of the envelope's type, if the bytes are one. -/
def handlerOf (raw : List UInt8) : Option (Handler × Value F) :=
  (parseObject N raw).bind fun obj =>
    (textField obj "t").bind fun t => (s.handlers[t]?).map (·, obj)

def on_datagram (raw : List UInt8) (addr : A) : UdpState A B :=
  match handlerOf N s raw with
  | some (.deliver, obj) => on_deliver N s obj
  | some (.other, _) => s
  | none => onDirect N s raw addr

end

/-! ## Runs -/

/-- The node's own calls, and what its other parts change. -/
inductive Command (A B : Type) where
  | set_peer_endpoint (did : String) (addr : A)
  | migrate (did : String) (addr : A)
  | add_peer_binding (did : String) (box : B)
  | on_frame (frame_type : String) (handler : Option Handler)
  | register
  | register_relayed
  | leases (relays : StrSet)
  | allowlist (trust : String → Bool)

def Command.run {A B : Type} (s : UdpState A B) : Command A B → UdpState A B
  | .set_peer_endpoint did addr | .migrate did addr =>
      { s with endpoints := s.endpoints.insert did addr }
  | .add_peer_binding did box => { s with boxes := s.boxes.insert did box }
  | .on_frame frame_type handler =>
      if frame_type = FRAME_TYPE ∨ frame_type = SEALED_TYPE then s
      else
        { s with
          handlers :=
            match handler with
            | none => s.handlers.erase frame_type
            | some h => s.handlers.insert frame_type h }
  | .register => { s with inbound := true }
  | .register_relayed => { s with deliver := true }
  | .leases relays => { s with leases := relays }
  | .allowlist trust => { s with trust }

/-- A datagram from an address. -/
structure Datagram (A : Type) where
  raw : List UInt8
  addr : A

section

variable {F A B : Type} [FloatCodec F] (N : Local F B)

def UdpState.step (s : UdpState A B) : Datagram A ⊕ Command A B → UdpState A B
  | .inl d => on_datagram N s d.raw d.addr
  | .inr c => c.run s

def UdpState.run (s : UdpState A B) (es : List (Datagram A ⊕ Command A B)) : UdpState A B :=
  es.foldl (UdpState.step N) s

/-- What was given to the callbacks, by signer and counter. -/
def UdpState.handedUp (s : UdpState A B) : List (String × Nat) :=
  (s.accepted.filter Accepted.handed).map (fun a => (a.signer, a.ctr))

/-! ## One frame -/

variable {s s' : UdpState A B}

/-- Every frame that was accepted is closed to its signer's window, and no
frame was accepted twice. -/
structure Once (s : UdpState A B) : Prop where
  closed : ∀ a ∈ s.accepted, (window s a.signer).Closed a.ctr
  nodup : (s.accepted.map (fun a => (a.signer, a.ctr))).Nodup

/-- Apart from the windows, `s'` is `s`, and what was closed stays so. -/
structure Opens (s s' : UdpState A B) : Prop where
  same : s' = { s with windows := s'.windows }
  closed : ∀ did ctr, (window s did).Closed ctr → (window s' did).Closed ctr

theorem Opens.refl (s : UdpState A B) : Opens s s where
  same := rfl
  closed _ _ h := h

theorem window_insert {w : ReplayWindow} {did did' : String} :
    window { s with windows := s.windows.insert did w } did' =
      if did = did' then w else window s did' := by
  rw [window, window, Std.ExtTreeMap.getD_insert]
  simp only [Std.LawfulEqCmp.compare_eq_iff_eq]

/-- A frame that is opened was open to its signer's window and no longer is,
and the newest frames are above all that were closed. -/
structure Fresh (s s' : UdpState A B) (f : Frame) (newest : Bool) : Prop extends Opens s s' where
  was_open : ¬ (window s f.signer).Closed f.ctr
  now_closed : (window s' f.signer).Closed f.ctr
  above : newest = true → ∀ ctr, (window s f.signer).Closed ctr → ctr < f.ctr

theorem opens_insert {did : String} {w : ReplayWindow}
    (h : ∀ ctr, (window s did).Closed ctr → w.Closed ctr) :
    Opens s { s with windows := s.windows.insert did w } where
  same := rfl
  closed did' ctr hclosed := by
    rw [window_insert]
    split
    · next heq => exact h ctr (heq ▸ hclosed)
    · exact hclosed

theorem openFrame_none {expect : Option String} {raw : List UInt8}
    (h : openFrame N s expect raw = (none, s')) : Opens s s' := by
  rw [openFrame] at h
  split at h
  · cases h
    exact Opens.refl s
  · next f _ =>
      dsimp only at h
      split_ifs at h with hexpect haccept
      · cases h
        exact Opens.refl s
      · cases h
      · cases h
        have hsame := ReplayWindow.accept_false (Bool.eq_false_iff.mpr haccept)
        refine opens_insert (fun ctr hclosed => ?_)
        rw [hsame]
        exact hclosed

theorem openFrame_some {expect : Option String} {raw : List UInt8} {f : Frame} {newest : Bool}
    (h : openFrame N s expect raw = (some (f, newest), s')) : Fresh s s' f newest := by
  rw [openFrame] at h
  split at h
  · cases h
  · next g _ =>
      dsimp only at h
      split_ifs at h with hexpect haccept
      · cases h
      · cases h
        refine ⟨opens_insert (fun ctr hclosed => ?_), ?_, ?_, ?_⟩
        · exact ReplayWindow.closed_accept haccept ctr (.inr hclosed)
        · exact ReplayWindow.not_closed_of_accept haccept
        · rw [window_insert, if_pos rfl]
          exact ReplayWindow.closed_accept haccept _ (.inl rfl)
        · intro hnewest ctr hclosed
          refine ReplayWindow.lt_of_closed hclosed (fun highest hhighest => ?_)
          rw [hhighest] at hnewest
          simpa using hnewest
      · cases h

/-! ## One datagram -/

/-- What a datagram can do: nothing beyond the windows; hand up a relayed
frame; or hand up a direct one, which moves its signer's endpoint to where it
came from if it is the newest, or the first. -/
inductive Received (s s' : UdpState A B) (addr : A) : Prop where
  | dropped (h : Opens s s')
  | relayed (f : Frame) (newest : Bool) (s₁ : UdpState A B) (h : Fresh s s₁ f newest)
      (heq : s' = { s₁ with
        accepted := ⟨false, f.signer, f.ctr, f.message, s₁.deliver⟩ :: s₁.accepted })
  | direct (f : Frame) (newest : Bool) (s₁ : UdpState A B) (h : Fresh s s₁ f newest)
      (heq : s' = { s₁ with
        endpoints := adopt s₁.endpoints newest f.signer addr
        accepted := ⟨true, f.signer, f.ctr, f.message, s₁.inbound⟩ :: s₁.accepted })

theorem received_onDirect (raw : List UInt8) (addr : A) :
    Received s (onDirect N s raw addr) addr := by
  rw [onDirect]
  cases hopen : openFrame N s none raw with
  | mk opened s₁ =>
      cases opened with
      | none => exact .dropped (openFrame_none N hopen)
      | some p => exact .direct p.1 p.2 s₁ (openFrame_some N hopen) rfl

theorem received_openRelayed (frame : List UInt8) (sender : String) (addr : A) :
    Received s (openRelayed N s frame sender) addr := by
  rw [openRelayed]
  split
  · exact .dropped (Opens.refl s)
  · cases hopen : openFrame N s (some sender) frame with
    | mk opened s₁ =>
        cases opened with
        | none => exact .dropped (openFrame_none N hopen)
        | some p => exact .relayed p.1 p.2 s₁ (openFrame_some N hopen) rfl

theorem received_on_deliver (obj : Value F) (addr : A) :
    Received s (on_deliver N s obj) addr := by
  rw [on_deliver]
  split
  · exact .dropped (Opens.refl s)
  · split
    · exact .dropped (Opens.refl s)
    · split
      · exact received_openRelayed N _ _ addr
      · exact .dropped (Opens.refl s)

theorem received_on_datagram (raw : List UInt8) (addr : A) :
    Received s (on_datagram N s raw addr) addr := by
  rw [on_datagram]
  split
  · exact received_on_deliver N _ addr
  · exact .dropped (Opens.refl s)
  · exact received_onDirect N raw addr

/-! ## Many -/

theorem Once.cons {a : Accepted} {f : Frame} {newest : Bool} (h : Once s)
    (hfresh : Fresh s s' f newest) (hsigner : a.signer = f.signer) (hctr : a.ctr = f.ctr)
    {t : UdpState A B} (hw : t.windows = s'.windows) (ht : t.accepted = a :: s'.accepted) :
    Once t := by
  have hwindow : ∀ did, window t did = window s' did := by
    intro did
    rw [window, window, hw]
  have haccepted : s'.accepted = s.accepted := by
    rw [hfresh.same]
  refine ⟨?_, ?_⟩
  · intro b hb
    rw [ht, haccepted] at hb
    rw [hwindow]
    rcases List.mem_cons.mp hb with rfl | hb
    · rw [hsigner, hctr]
      exact hfresh.now_closed
    · exact hfresh.closed b.signer b.ctr (h.closed b hb)
  · rw [ht, haccepted, List.map_cons, List.nodup_cons]
    refine ⟨?_, h.nodup⟩
    intro hmem
    obtain ⟨b, hb, heq⟩ := List.mem_map.mp hmem
    refine hfresh.was_open ?_
    obtain ⟨hs, hc⟩ := Prod.mk.inj heq
    rw [← hsigner, ← hctr, ← hs, ← hc]
    exact h.closed b hb

theorem Once.received {addr : A} (h : Once s) (hr : Received s s' addr) : Once s' := by
  cases hr with
  | dropped ho =>
      have haccepted : s'.accepted = s.accepted := by
        rw [ho.same]
      refine ⟨?_, ?_⟩
      · intro a ha
        exact ho.closed a.signer a.ctr (h.closed a (haccepted ▸ ha))
      · rw [haccepted]
        exact h.nodup
  | relayed f newest s₁ hf heq =>
      subst heq
      exact h.cons hf rfl rfl rfl rfl
  | direct f newest s₁ hf heq =>
      subst heq
      exact h.cons hf rfl rfl rfl rfl

/-- The node's own calls open no frames. -/
theorem Command.run_same (c : Command A B) :
    (c.run s).windows = s.windows ∧ (c.run s).accepted = s.accepted := by
  cases c with
  | on_frame frame_type handler =>
      dsimp only [Command.run]
      split <;> exact ⟨rfl, rfl⟩
  | _ => exact ⟨rfl, rfl⟩

theorem Once.step (h : Once s) (e : Datagram A ⊕ Command A B) : Once (s.step N e) := by
  cases e with
  | inl d => exact h.received (received_on_datagram N d.raw d.addr)
  | inr c =>
      obtain ⟨hw, ha⟩ := Command.run_same (s := s) c
      refine ⟨?_, ?_⟩
      · intro a hmem
        rw [UdpState.step, window, hw]
        exact h.closed a (ha ▸ hmem)
      · rw [UdpState.step, ha]
        exact h.nodup

theorem Once.run (h : Once s) (es : List (Datagram A ⊕ Command A B)) : Once (s.run N es) := by
  induction es generalizing s with
  | nil => exact h
  | cons e es ih => exact ih (h.step N e)

theorem once_init (trust : String → Bool) : Once ({ trust } : UdpState A B) where
  closed _ h := nomatch h
  nodup := List.nodup_nil

/-- After any datagrams and calls, no counter of a signer has been handed up
twice.  One more datagram moves an endpoint only if it is a direct frame of
that peer, and either its counter is above those of all frames of the peer
accepted so far, or no endpoint was known. -/
theorem at_most_once (trust : String → Bool) (es : List (Datagram A ⊕ Command A B)) :
    (UdpState.run N { trust } es).handedUp.Nodup ∧
      ∀ (d : Datagram A) (did : String),
        (UdpState.run N { trust } (es ++ [.inl d])).endpoints[did]? =
            (UdpState.run N { trust } es).endpoints[did]? ∨
          ∃ a, (UdpState.run N { trust } (es ++ [.inl d])).accepted =
              a :: (UdpState.run N { trust } es).accepted ∧
            a.direct = true ∧ a.signer = did ∧
            (UdpState.run N { trust } (es ++ [.inl d])).endpoints[did]? = some d.addr ∧
            ((∀ b ∈ (UdpState.run N { trust } es).accepted, b.signer = did → b.ctr < a.ctr) ∨
              (UdpState.run N { trust } es).endpoints[did]? = none) := by
  have honce := (once_init trust).run N es
  refine ⟨?_, ?_⟩
  · exact honce.nodup.sublist (List.filter_sublist.map _)
  · intro d did
    have hrun : UdpState.run N { trust } (es ++ [.inl d]) =
        on_datagram N (UdpState.run N { trust } es) d.raw d.addr := by
      rw [UdpState.run, UdpState.run, List.foldl_append]
      rfl
    rw [hrun]
    generalize UdpState.run N { trust } es = s at honce
    generalize hs' : on_datagram N s d.raw d.addr = s'
    have hr : Received s s' d.addr := hs' ▸ received_on_datagram N d.raw d.addr
    cases hr with
    | dropped ho =>
        left
        rw [ho.same]
    | relayed f newest s₁ hf heq =>
        left
        rw [heq, hf.same]
    | direct f newest s₁ hf heq =>
        have hend : s₁.endpoints = s.endpoints := by
          rw [hf.same]
        have hacc : s₁.accepted = s.accepted := by
          rw [hf.same]
        subst heq
        dsimp only
        rw [hend, hacc, adopt]
        by_cases hmoves : newest ∨ f.signer ∉ s.endpoints
        · rw [if_pos hmoves, StrMap.get_insert]
          by_cases hdid : f.signer = did
          · right
            refine ⟨_, rfl, rfl, hdid, if_pos hdid, ?_⟩
            rcases hmoves with hnewest | hnone
            · left
              intro b hb hbd
              refine hf.above hnewest b.ctr ?_
              rw [hdid, ← hbd]
              exact honce.closed b hb
            · right
              rw [← hdid]
              exact StrMap.not_mem_iff_get.mp hnone
          · left
            exact if_neg hdid
        · left
          rw [if_neg hmoves]

end

end Secdogie.Transport
