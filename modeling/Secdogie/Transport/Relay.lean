/-
# `Secdogie.Transport.Relay` — frames passed on for registered nodes

A node registers with a relay and others send it frames through it.  What the
relay asks of a frame is what the rendezvous asks of a request, except that a
frame to pass on has no timestamp.  `replays_neutral` is about both.
-/
import Secdogie.Transport.Rendezvous
import Secdogie.Transport.Udp

namespace Secdogie.Transport

open Secdogie.Graph Secdogie.Identity

def RELAY_REGISTER : String := "secdogie/relay/register/v1"
def RELAY_SEND : String := "secdogie/relay/send/v1"
def MAX_INNER : Nat := 60000

structure RelayClient (F : Type) where
  addr : String × Int
  expires_at : F
  /-- the timestamp of the request it is from -/
  ts : F

structure RelayService (F B : Type) where
  node : Local F B
  limits : Limits F
  lease : F
  max_clients : Int

structure RelayState (F : Type) where
  clients : StrMap (RelayClient F) := ∅
  last_ts : StrMap F := ∅
  buckets : StrMap (Bucket F) := ∅
  /-- the registrations accepted, newest first -/
  registered : List (String × F) := []

inductive RelayReply (F : Type) where
  | ignored
  | dropped (reason : Drop)
  | ack (to_did : String) (addr : String × Int) (lease : F) (echo : Value F)
  | forwarded (dst : String) (addr : String × Int) (src inner : String)

section

variable {F B : Type} [PyFloat F] (V : RelayService F B) (s : RelayState F)

/-- `_expire` -/
def expired (clients : StrMap (RelayClient F)) (now : F) : StrMap (RelayClient F) :=
  clients.filter (fun _ c => !PyFloat.le c.expires_at now)

/-- Whether there is room for the signer, and the clients left by the search
for it. -/
def room (clients : StrMap (RelayClient F)) (signer : String) (now : F) :
    Bool × StrMap (RelayClient F) :=
  if signer ∈ clients then (true, clients)
  else (decide (((expired clients now).size : Int) < V.max_clients), expired clients now)

/-- What becomes of a registration with a token and a fresh timestamp. -/
def enroll (signer : String) (ts : F) (a : Arrival F) : RelayState F × RelayReply F :=
  let c := room V s.clients signer a.admitted
  if !c.1 then ({ s with clients := c.2 }, .dropped .full)
  else
    ({ s with
        last_ts := s.last_ts.insert signer ts
        clients := c.2.insert signer ⟨a.src, PyFloat.add a.admitted V.lease, ts⟩
        registered := (signer, ts) :: s.registered },
      .ack signer a.src V.lease ((field a.obj "ts").getD .null))

/-- `_on_register` -/
def relay_register (a : Arrival F) : RelayState F × RelayReply F :=
  match authentic V.node a.trust a.obj with
  | none => (s, .dropped .unauthenticated)
  | some signer =>
      let r := take V.limits s.buckets signer a.admitted
      let s' := { s with buckets := r.2 }
      if !r.1 then (s', .dropped .rate_limited)
      else
        match fresh V.limits a.admitted (s.last_ts[signer]?) (field a.obj "ts") with
        | .error d => (s', .dropped d)
        | .ok ts => enroll V s' signer ts a

/-- What becomes of a frame to pass on whose signer had a token. -/
def forward (signer : String) (a : Arrival F) : RelayReply F :=
  match textField a.obj "dst", textField a.obj "inner" with
  | some dst, some inner =>
      if dst = signer ∨ MAX_INNER < inner.length then .dropped .malformed
      else if !a.trust dst then .dropped .unauthorized
      else
        match s.clients[dst]? with
        | none => .dropped .no_route
        | some reg =>
            if PyFloat.le reg.expires_at a.admitted then .dropped .no_route
            else .forwarded dst reg.addr signer inner
  | _, _ => .dropped .malformed

/-- `_on_send` -/
def relay_send (a : Arrival F) : RelayState F × RelayReply F :=
  match authentic V.node a.trust a.obj with
  | none => (s, .dropped .unauthenticated)
  | some signer =>
      let r := take V.limits s.buckets signer a.admitted
      let s' := { s with buckets := r.2 }
      if !r.1 then (s', .dropped .rate_limited) else (s', forward s' signer a)

def relay (a : Arrival F) : RelayState F × RelayReply F :=
  if textField a.obj "t" = some RELAY_REGISTER then relay_register V s a
  else if textField a.obj "t" = some RELAY_SEND then relay_send V s a
  else (s, .ignored)

/-! ## One frame -/

variable {V} {s}

/-- A copy registers nobody: it is no registration, or its signer is not
accepted or has no token, or its timestamp is not fresh. -/
def RelayUnfit (V : RelayService F B) (s : RelayState F) (a : Arrival F) : Prop :=
  textField a.obj "t" = some RELAY_REGISTER → ∀ signer ts,
    authentic V.node a.trust a.obj = some signer →
    (take V.limits s.buckets signer a.admitted).1 = true →
    fresh V.limits a.admitted (s.last_ts[signer]?) (field a.obj "ts") ≠ .ok ts

/-- The signer of a frame has a token in the one state if in the other. -/
def RelaySameBudget (V : RelayService F B) (s t : RelayState F) (a : Arrival F) : Prop :=
  ∀ signer, authentic V.node a.trust a.obj = some signer →
    (take V.limits s.buckets signer a.admitted).1 = (take V.limits t.buckets signer a.admitted).1

/-- The states are the same but for the buckets. -/
def RelaySame (s t : RelayState F) : Prop := ∃ b, t = { s with buckets := b }

theorem relay_send_state (a : Arrival F) :
    (relay_send V s a).1 = { s with buckets := (relay_send V s a).1.buckets } := by
  rw [relay_send]
  split
  · rfl
  · dsimp only
    split_ifs <;> rfl

/-- A registration gets as far as the clients only with a token and a fresh
timestamp. -/
theorem relay_register_cases (a : Arrival F) :
    (relay_register V s a).1 = { s with buckets := (relay_register V s a).1.buckets } ∨
      ∃ signer ts, authentic V.node a.trust a.obj = some signer ∧
        (take V.limits s.buckets signer a.admitted).1 = true ∧
        fresh V.limits a.admitted (s.last_ts[signer]?) (field a.obj "ts") = .ok ts ∧
        (relay_register V s a).1 =
          (enroll V { s with buckets := (take V.limits s.buckets signer a.admitted).2 }
            signer ts a).1 := by
  rw [relay_register]
  split
  · exact .inl rfl
  · next signer hsigner =>
      dsimp only
      split_ifs with htake
      · exact .inl rfl
      · rw [Bool.not_eq_true, Bool.not_eq_false'] at htake
        split
        · exact .inl rfl
        · next ts hts => exact .inr ⟨signer, ts, hsigner, htake, hts, rfl⟩

theorem relay_unfit {a : Arrival F} (h : RelayUnfit V s a) :
    (relay V s a).1 = { s with buckets := (relay V s a).1.buckets } := by
  rw [relay]
  split_ifs with hregister hsend
  · rcases relay_register_cases a with hkept | ⟨signer, ts, hsigner, htake, hfresh, -⟩
    · exact hkept
    · exact absurd hfresh (h hregister signer ts hsigner htake)
  · exact relay_send_state a
  · rfl

theorem enroll_same (b : StrMap (Bucket F)) (signer : String) (ts : F) (a : Arrival F) :
    RelaySame (enroll V s signer ts a).1 (enroll V { s with buckets := b } signer ts a).1 ∧
      (enroll V s signer ts a).2 = (enroll V { s with buckets := b } signer ts a).2 := by
  rw [enroll, enroll]
  dsimp only
  split_ifs
  · exact ⟨⟨b, rfl⟩, rfl⟩
  · exact ⟨⟨b, rfl⟩, rfl⟩

theorem relay_same {b : StrMap (Bucket F)} {a : Arrival F}
    (h : RelaySameBudget V s { s with buckets := b } a) :
    RelaySame (relay V s a).1 (relay V { s with buckets := b } a).1 ∧
      (relay V s a).2 = (relay V { s with buckets := b } a).2 := by
  rw [relay, relay]
  split_ifs with hregister hsend
  · rw [relay_register, relay_register]
    cases hsigner : authentic V.node a.trust a.obj with
    | none => exact ⟨⟨b, rfl⟩, rfl⟩
    | some signer =>
        dsimp only
        rw [← h signer hsigner]
        split_ifs with htake
        · exact ⟨⟨_, rfl⟩, rfl⟩
        · cases fresh V.limits a.admitted (s.last_ts[signer]?) (field a.obj "ts") with
          | error d => exact ⟨⟨_, rfl⟩, rfl⟩
          | ok ts => exact enroll_same _ signer ts a
  · rw [relay_send, relay_send]
    cases hsigner : authentic V.node a.trust a.obj with
    | none => exact ⟨⟨b, rfl⟩, rfl⟩
    | some signer =>
        dsimp only
        rw [← h signer hsigner]
        split_ifs
        · exact ⟨⟨_, rfl⟩, rfl⟩
        · exact ⟨⟨_, rfl⟩, rfl⟩
  · exact ⟨⟨b, rfl⟩, rfl⟩

theorem neutral_relay (s : RelayState F) (es : List (Bool × Arrival F))
    (h : Inserted.AllMeet (relay V) (RelayUnfit V) (RelaySameBudget V) s s es) :
    Inserted.answers (relay V) s es = Inserted.answers (relay V) s (Inserted.originals es) ∧
      RelaySame (Inserted.after (relay V) s es)
        (Inserted.after (relay V) s (Inserted.originals es)) := by
  refine Inserted.answers_inserted ?_ ?_ es s s ⟨s.buckets, rfl⟩ h
  · rintro s _ a ⟨b, rfl⟩ hunfit
    exact ⟨b, by rw [relay_unfit hunfit]⟩
  · rintro s _ a ⟨b, rfl⟩ hsame
    exact relay_same hsame

/-! ## The newest registration -/

structure RelayNewest (s : RelayState F) : Prop where
  recorded : Recorded s.last_ts s.registered
  latest : ∀ (did : String) reg, s.clients[did]? = some reg → Latest s.registered did reg.ts

theorem relayNewest_init : RelayNewest ({} : RelayState F) where
  recorded := recorded_nil
  latest did reg h := by
    rw [StrMap.get_empty] at h
    cases h

theorem room_get {clients : StrMap (RelayClient F)} {signer did : String} {now : F}
    {reg : RelayClient F} (h : (room V clients signer now).2[did]? = some reg) :
    clients[did]? = some reg := by
  rw [room] at h
  split_ifs at h
  · exact h
  · dsimp only [expired] at h
    rw [Std.ExtTreeMap.getElem?_filter'] at h
    exact (Option.filter_eq_some_iff.mp h).1

variable [LawfulPyFloat F]

theorem RelayNewest.enrolled (h : RelayNewest s) {signer : String} {ts : F} {a : Arrival F}
    (hfresh : fresh V.limits a.admitted (s.last_ts[signer]?) (field a.obj "ts") = .ok ts) :
    RelayNewest (enroll V s signer ts a).1 := by
  rw [enroll]
  split_ifs
  · exact ⟨h.recorded, fun did reg hreg => h.latest did reg (room_get hreg)⟩
  · refine ⟨h.recorded.cons hfresh, ?_⟩
    intro did reg hreg
    dsimp only at hreg ⊢
    rw [StrMap.get_insert] at hreg
    split_ifs at hreg with heq
    · cases hreg
      subst heq
      exact h.recorded.latest hfresh
    · exact (h.latest did reg (room_get hreg)).cons_other heq

theorem RelayNewest.relayed (h : RelayNewest s) (a : Arrival F) : RelayNewest (relay V s a).1 := by
  rw [relay]
  split_ifs
  · rcases relay_register_cases (V := V) (s := s) a with hkept | ⟨signer, ts, -, -, hfresh, hs⟩
    · rw [hkept]
      exact ⟨h.recorded, h.latest⟩
    · rw [hs]
      have hspent : RelayNewest
          { s with buckets := (take V.limits s.buckets signer a.admitted).2 } :=
        ⟨h.recorded, h.latest⟩
      exact hspent.enrolled hfresh
  · rw [relay_send_state]
    exact ⟨h.recorded, h.latest⟩
  · exact h

theorem newest_relay (es : List (Bool × Arrival F)) :
    RelayNewest (Inserted.after (relay V) {} es) := by
  have hrun : ∀ s, RelayNewest s → RelayNewest (Inserted.after (relay V) s es) := by
    induction es with
    | nil => exact fun _ hs => hs
    | cons e es ih => exact fun s hs => ih _ (hs.relayed e.2)
  exact hrun {} relayNewest_init

/-! ## Both servers -/

/-- At the rendezvous and at the relay: copies that are admitted to nothing and
take no token that a frame then lacks change no answer to a frame that is no
copy, and nobody's registration.  Whatever is slipped in, a registration is
that of the newest timestamp accepted of its DID, which is above all others. -/
theorem replays_neutral (V : RendezvousServer F) (W : RelayService F B)
    (es : List (Bool × Arrival F)) :
    (Inserted.AllMeet (serve V) (Unfit V) (SameBudget V) {} {} es →
      Inserted.answers (serve V) {} es = Inserted.answers (serve V) {} (Inserted.originals es) ∧
        SameButBuckets (Inserted.after (serve V) {} es)
          (Inserted.after (serve V) {} (Inserted.originals es))) ∧
    (Inserted.AllMeet (relay W) (RelayUnfit W) (RelaySameBudget W) {} {} es →
      Inserted.answers (relay W) {} es = Inserted.answers (relay W) {} (Inserted.originals es) ∧
        RelaySame (Inserted.after (relay W) {} es)
          (Inserted.after (relay W) {} (Inserted.originals es))) ∧
    Newest (Inserted.after (serve V) {} es) ∧ RelayNewest (Inserted.after (relay W) {} es) :=
  ⟨neutral_rendezvous {} es, neutral_relay {} es, newest_rendezvous es, newest_relay es⟩

end

/-! ## A copy of a lookup -/

/-- What is slipped in are frames that came before, from any address. -/
def Copies {F : Type} (es : List (Bool × Arrival F)) : Prop :=
  ∀ before a later, es = before ++ (true, a) :: later → ∃ b, (false, b) ∈ before ∧ b.obj = a.obj

namespace Asked

def server (burst : Int) : RendezvousServer (Option Int) where
  C := .lenient
  B := ⟨fun _ => "", fun _ => some none⟩
  limits := ⟨some 120, some 0, some burst, some 1⟩
  ttl := some 90

/-- A lookup of nobody, by `did:p`. -/
def ask (ts : Int) : Value (Option Int) :=
  .obj [("did", .str "did:p"), ("sig", .str ""), ("signer", .str "did:p"),
    ("t", .str Request.lookup.text), ("ts", .float (some ts)), ("type", .str Request.lookup.text)]

def arrival (ts : Int) (host : String) : Arrival (Option Int) where
  obj := ask ts
  src := (host, 5000)
  trust _ := true
  admitted := some 0
  stored := some 0
  replied := some 0

theorem requestKind_ask (ts : Int) : requestKind (ask ts) = some .lookup := by
  simp [requestKind, ask, textField, field, Value.asObj, objGet, Value.asStr, Request.text]

theorem requester_ask (burst ts : Int) :
    requester (server burst) .lookup (fun _ => true) (ask ts) = .ok "did:p" := by
  simp [requester, ask, textField, field, Value.asObj, objGet, Value.asStr, Request.text, server,
    verifyPayload, Crypto.lenient]

theorem fresh_ask {burst ts : Int} (last : Option (Option Int)) (h : -120 ≤ ts ∧ ts ≤ 120) :
    fresh (server burst).limits (some 0) last (field (ask ts) "ts") =
      if last.any (PyFloat.le (some ts)) then .error .replayed else .ok (some ts) := by
  have hts : field (ask ts) "ts" = some (.float (some ts)) := by
    simp [ask, field, Value.asObj, objGet]
  rw [fresh, hts]
  simp [number, finite, PyFloat.isFinite, PyFloat.isNaN, server, PyFloat.lt, PyFloat.sub]
  omega

theorem take_ask {burst k : Int} {buckets : StrMap (Bucket (Option Int))}
    (h : buckets.getD "did:p" ⟨some burst, some 0⟩ = ⟨some k, some 0⟩) (hk : k ≤ burst) :
    take (server burst).limits buckets "did:p" (some 0) =
      if k < 1 then (false, buckets.insert "did:p" ⟨some k, some 0⟩)
      else (true, buckets.insert "did:p" ⟨some (k - 1), some 0⟩) := by
  have hmin : pyMin (some burst) (some k) = (some k : Option Int) := by
    rw [pyMin]
    simp only [PyFloat.lt, decide_eq_true_eq]
    split_ifs
    · rfl
    · exact congrArg some (by omega)
  have hbucket : buckets.getD "did:p" ⟨(server burst).limits.burst, some 0⟩ = ⟨some k, some 0⟩ := h
  have hburst : (server burst).limits.burst = some burst := rfl
  have hrefill : PyFloat.add (some k) (PyFloat.mul (PyFloat.sub (some 0) (some 0))
      (server burst).limits.rate) = (some k : Option Int) := by
    simp [PyFloat.add, PyFloat.mul, PyFloat.sub, server]
  rw [take, hbucket]
  dsimp only
  rw [hrefill, hburst, hmin]
  simp [server, PyFloat.sub, PyFloat.lt]

/-- A lookup that finds a token. -/
theorem serve_ask {burst k ts : Int} {host : String} {s : RendezvousState (Option Int)}
    (hbucket : s.buckets.getD "did:p" ⟨some burst, some 0⟩ = ⟨some k, some 0⟩) (hk : k ≤ burst)
    (hpos : 1 ≤ k) (hts : -120 ≤ ts ∧ ts ≤ 120) :
    serve (server burst) s (arrival ts host) =
      if ((s.last_ts .lookup)["did:p"]?).any (PyFloat.le (some ts)) then
        ({ s with buckets := s.buckets.insert "did:p" ⟨some (k - 1), some 0⟩ }, .dropped .replayed)
      else
        ({ s with
            buckets := s.buckets.insert "did:p" ⟨some (k - 1), some 0⟩
            last_ts := Function.update s.last_ts .lookup
              ((s.last_ts .lookup).insert "did:p" (some ts)) },
          .result "did:p" "" [] (.float (some ts)) (some 0)) := by
  have hecho : field (ask ts) "ts" = some (.float (some ts)) := by
    simp [ask, field, Value.asObj, objGet]
  have htarget : textField (ask ts) "target_did" = none := by
    simp [ask, textField, field, Value.asObj, objGet]
  rw [serve, arrival, requestKind_ask]
  dsimp only
  rw [on_lookup, admit_request]
  dsimp only
  rw [requester_ask]
  have htake := take_ask hbucket hk
  rw [if_neg (not_lt.mpr hpos)] at htake
  dsimp only
  rw [htake, fresh_ask _ hts, htarget, hecho]
  simp only [Bool.not_true, Bool.false_eq_true, if_false]
  split_ifs <;> rfl

/-- A lookup that finds none. -/
theorem serve_limited {burst k ts : Int} {host : String} {s : RendezvousState (Option Int)}
    (hbucket : s.buckets.getD "did:p" ⟨some burst, some 0⟩ = ⟨some k, some 0⟩) (hk : k ≤ burst)
    (hpos : k < 1) :
    (serve (server burst) s (arrival ts host)).2 = .dropped .rate_limited := by
  rw [serve, arrival, requestKind_ask]
  dsimp only
  rw [on_lookup, admit_request]
  dsimp only
  rw [requester_ask]
  have htake := take_ask hbucket hk
  rw [if_pos hpos] at htake
  dsimp only
  rw [htake]
  rfl

/-- Two lookups, and a copy of the first from another address in between. -/
def twice : List (Bool × Arrival (Option Int)) :=
  [(false, arrival 1 "198.51.100.7"), (true, arrival 1 "203.0.113.9"),
    (false, arrival 2 "198.51.100.7")]

theorem copies_twice : Copies twice := by
  intro before a later h
  rw [twice] at h
  rcases before with _ | ⟨x, _ | ⟨y, rest⟩⟩
  · cases (List.cons.inj h).1
  · obtain ⟨hx, htail⟩ := List.cons.inj h
    cases (List.cons.inj htail).1
    exact ⟨arrival 1 "198.51.100.7", by simp [← hx], rfl⟩
  · obtain ⟨-, htail⟩ := List.cons.inj h
    obtain ⟨-, hlast⟩ := List.cons.inj htail
    rcases rest with _ | ⟨z, rest⟩
    · cases (List.cons.inj hlast).1
    · cases List.append_ne_nil_of_right_ne_nil rest (List.cons_ne_nil _ _)
        (List.cons.inj hlast).2.symm

theorem answers_twice : Inserted.answers (serve (server 2)) {} twice =
    [.result "did:p" "" [] (.float (some 1)) (some 0), .dropped .rate_limited] := by
  rw [twice, Inserted.answers, serve_ask (k := 2) Std.ExtTreeMap.getD_empty (by decide) (by decide)
    (by decide), if_neg (by simp)]
  rw [Inserted.answers, serve_ask (k := 1) (by simp) (by decide) (by decide) (by decide),
    if_pos (by simp [PyFloat.le])]
  rw [Inserted.answers, serve_limited (k := 0) (by simp) (by decide) (by decide)]
  rfl

theorem answers_originals : Inserted.answers (serve (server 2)) {} (Inserted.originals twice) =
    [.result "did:p" "" [] (.float (some 1)) (some 0),
      .result "did:p" "" [] (.float (some 2)) (some 0)] := by
  rw [show Inserted.originals twice = [(false, arrival 1 "198.51.100.7"),
    (false, arrival 2 "198.51.100.7")] from rfl]
  rw [Inserted.answers, serve_ask (k := 2) Std.ExtTreeMap.getD_empty (by decide) (by decide)
    (by decide), if_neg (by simp)]
  rw [Inserted.answers, serve_ask (k := 1) (by simp) (by decide) (by decide) (by decide),
    if_neg (by simp [PyFloat.le])]
  rfl

/-- The copy takes the token of the second lookup. -/
theorem not_neutral_twice : ¬ ∀ es, Copies es →
    Inserted.answers (serve (server 2)) {} es =
      Inserted.answers (serve (server 2)) {} (Inserted.originals es) := by
  intro h
  have heq := h twice copies_twice
  rw [answers_twice, answers_originals] at heq
  cases heq

/-- A relay, for which lookups are no frames. -/
def bystander : RelayService (Option Int) Unit where
  node := ⟨.lenient, fun _ => .garbled, "did:r", false, fun _ _ => none⟩
  limits := (server 3).limits
  lease := some 60
  max_clients := 64

def once : List (Bool × Arrival (Option Int)) :=
  [(false, arrival 1 "198.51.100.7"), (true, arrival 1 "203.0.113.9")]

theorem allMeet_once : Inserted.AllMeet (serve (server 3)) (Unfit (server 3)) (SameBudget (server 3))
    {} {} once := by
  refine ⟨fun _ _ _ _ => rfl, ?_, trivial⟩
  rw [serve_ask (k := 3) Std.ExtTreeMap.getD_empty (by decide) (by decide) (by decide),
    if_neg (by simp)]
  rintro kind signer ts hkind ⟨hsigner, -, hfresh⟩
  cases (requestKind_ask 1).symm.trans hkind
  cases (requester_ask 3 1).symm.trans hsigner
  -- the timestamp was accepted with the first
  refine absurd ((fresh_ask _ (by decide)).symm.trans hfresh) ?_
  rw [if_pos (by simp [PyFloat.le])]
  exact fun h => nomatch h

theorem allMeet_bystander : Inserted.AllMeet (relay bystander) (RelayUnfit bystander)
    (RelaySameBudget bystander) {} {} once := by
  refine ⟨fun _ _ => rfl, ?_, trivial⟩
  intro hregister
  have ht : textField (ask 1) "t" = some Request.lookup.text := by
    simp [ask, textField, field, Value.asObj, objGet, Value.asStr]
  exact absurd (Option.some.inj (ht.symm.trans hregister)) (by decide)

/-- A copy of a lookup that was answered. -/
theorem neutral_once :
    Inserted.answers (serve (server 3)) {} once =
        Inserted.answers (serve (server 3)) {} (Inserted.originals once) ∧
      Inserted.answers (relay bystander) {} once =
        Inserted.answers (relay bystander) {} (Inserted.originals once) :=
  ⟨((replays_neutral (server 3) bystander once).1 allMeet_once).1,
    ((replays_neutral (server 3) bystander once).2.1 allMeet_bystander).1⟩

end Asked

end Secdogie.Transport
