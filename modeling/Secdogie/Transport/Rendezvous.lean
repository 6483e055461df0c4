/-
# `Secdogie.Transport.Rendezvous` — a directory of endpoints

Nodes register their endpoints at a rendezvous and look up those of others.
A request spends a token of its signer before its timestamp is looked at, and
what is dropped for the lack of one leaves no trace: `neutral_rendezvous` says
when copies slipped in between the requests change no answer to these.
-/
import Secdogie.Lib.Inserted
import Secdogie.Transport.Admission
import Secdogie.Transport.Membership

namespace Secdogie.Transport

open Secdogie.Graph Secdogie.Identity

/-- The kinds of requests. -/
inductive Request where
  | register
  | lookup
deriving DecidableEq

def Request.text : Request → String
  | .register => "secdogie/rendezvous/register/v1"
  | .lookup => "secdogie/rendezvous/lookup/v1"

def SELF_REPORTABLE : List String := ["local", "candidate", "public"]

structure Registration (F : Type) where
  endpoints : EndpointSet
  last_seen : F
  /-- the timestamp of the request it is from -/
  ts : F

structure RendezvousServer (F : Type) where
  C : Crypto
  B : Builtins F
  limits : Limits F
  ttl : F

structure RendezvousState (F : Type) where
  registry : StrMap (Registration F) := ∅
  last_ts : Request → StrMap F := fun _ => ∅
  buckets : StrMap (Bucket F) := ∅
  /-- the registrations accepted, newest first -/
  registered : List (String × F) := []

/-- A frame with the address it came from, whom the server trusts by then, and
what its clock says each time it is read. -/
structure Arrival (F : Type) where
  obj : Value F
  src : String × Int
  trust : String → Bool
  admitted : F
  stored : F
  replied : F

inductive RendezvousReply (F : Type) where
  | ignored
  | dropped (reason : Drop)
  | ack (to_did : String) (reflexive : Endpoint) (echo : Value F) (ttl ts : F)
  | result (to_did target_did : String) (endpoints : List Endpoint) (echo : Value F) (ts : F)

section

variable {F : Type} [PyFloat F]

/-- What `for item in items or []` goes through; `none` when this raises.  The
items of a text or an object are no objects. -/
def itemsOf : Option (Value F) → Option (List (Value F))
  | some (.arr items) => some items
  | none | some .null | some (.bool false) | some (.int 0) | some (.str _) | some (.obj _) => some []
  | some (.float f) =>
      if (PyFloat.ofInt 0).any (fun z => PyFloat.le f z && PyFloat.le z f) then some [] else none
  | _ => none

/-- Adds a self-reported endpoint; `none` when this raises. -/
def addReported (B : Builtins F) (es : EndpointSet) (item : Value F) : Option EndpointSet :=
  match field item "kind" with
  | some (.arr _) | some (.obj _) => none
  | some (.str kind) =>
      if kind ∉ SELF_REPORTABLE then some es
      else
        match field item "host", field item "port" with
        | some host, some port =>
            match B.int port with
            | none => none
            | some none => some es
            | some (some port) =>
                match Endpoint.make kind (B.str host) port with
                | none => some es
                | some e => some (EndpointSet.add es e)
        | _, _ => some es
  | _ => some es

def endpoints_from_json (B : Builtins F) (v : Option (Value F)) : Option EndpointSet :=
  (itemsOf v).bind (fun items => items.foldlM (addReported B) [])

variable (V : RendezvousServer F) (s : RendezvousState F)

/-- The signer of an authorized request of the kind. -/
def requester (kind : Request) (trust : String → Bool) (obj : Value F) : Except Drop String :=
  if textField obj "type" ≠ some kind.text then .error .malformed
  else
    match verifyPayload V.C trust obj with
    | (true, some signer) =>
        if textField obj "did" ≠ some signer then .error .unauthenticated else .ok signer
    | _ => .error .unauthenticated

/-- `_admit` -/
def admit_request (kind : Request) (a : Arrival F) :
    Except Drop (String × F) × RendezvousState F :=
  match requester V kind a.trust a.obj with
  | .error d => (.error d, s)
  | .ok signer =>
      let r := take V.limits s.buckets signer a.admitted
      let s' := { s with buckets := r.2 }
      if !r.1 then (.error .rate_limited, s')
      else
        match fresh V.limits a.admitted ((s.last_ts kind)[signer]?) (field a.obj "ts") with
        | .error d => (.error d, s')
        | .ok ts =>
            (.ok (signer, ts),
              { s' with
                last_ts := Function.update s.last_ts kind ((s.last_ts kind).insert signer ts) })

def on_register (a : Arrival F) : RendezvousState F × RendezvousReply F :=
  match admit_request V s .register a with
  | (.error d, s') => (s', .dropped d)
  | (.ok (signer, ts), s') =>
      match endpoints_from_json V.B (field a.obj "endpoints"),
          Endpoint.make "observed" a.src.1 a.src.2 with
      | some es, some reflexive =>
          ({ s' with
              registry := s'.registry.insert signer ⟨EndpointSet.add es reflexive, a.stored, ts⟩
              registered := (signer, ts) :: s'.registered },
            .ack signer reflexive ((field a.obj "ts").getD .null) V.ttl a.replied)
      | _, _ => (s', .dropped .raised)

/-- The endpoints of an authorized target that are still live. -/
def liveEndpoints (a : Arrival F) (target : String) : List Endpoint :=
  if !a.trust target then []
  else
    match s.registry[target]? with
    | none => []
    | some reg =>
        if PyFloat.le (PyFloat.sub a.stored reg.last_seen) V.ttl then EndpointSet.all reg.endpoints
        else []

def on_lookup (a : Arrival F) : RendezvousState F × RendezvousReply F :=
  match admit_request V s .lookup a with
  | (.error d, s') => (s', .dropped d)
  | (.ok (signer, _), s') =>
      let echo := (field a.obj "ts").getD .null
      match textField a.obj "target_did" with
      | none => (s', .result signer "" [] echo a.replied)
      | some target => (s', .result signer target (liveEndpoints V s' a target) echo a.replied)

/-- The transport hands the server the frames of the two kinds. -/
def requestKind (obj : Value F) : Option Request :=
  if textField obj "t" = some Request.register.text then some .register
  else if textField obj "t" = some Request.lookup.text then some .lookup
  else none

def serve (a : Arrival F) : RendezvousState F × RendezvousReply F :=
  match requestKind a.obj with
  | none => (s, .ignored)
  | some .register => on_register V s a
  | some .lookup => on_lookup V s a

/-! ## One request -/

variable {V} {s}

/-- The request finds a token of its signer, and its timestamp is fresh. -/
def Admitted (V : RendezvousServer F) (s : RendezvousState F) (kind : Request) (a : Arrival F)
    (signer : String) (ts : F) : Prop :=
  requester V kind a.trust a.obj = .ok signer ∧
    (take V.limits s.buckets signer a.admitted).1 = true ∧
    fresh V.limits a.admitted ((s.last_ts kind)[signer]?) (field a.obj "ts") = .ok ts

/-- What is not admitted has spent a token at most. -/
theorem admit_error {kind : Request} {a : Arrival F} {d : Drop} {s' : RendezvousState F}
    (h : admit_request V s kind a = (.error d, s')) : s' = { s with buckets := s'.buckets } := by
  rw [admit_request] at h
  split at h
  · cases h
    rfl
  · dsimp only at h
    split_ifs at h
    · cases h
      rfl
    · split at h
      · cases h
        rfl
      · cases h

theorem admit_ok {kind : Request} {a : Arrival F} {signer : String} {ts : F}
    {s' : RendezvousState F} (h : admit_request V s kind a = (.ok (signer, ts), s')) :
    Admitted V s kind a signer ts ∧
      s' = { s with
        buckets := s'.buckets
        last_ts := Function.update s.last_ts kind ((s.last_ts kind).insert signer ts) } := by
  rw [admit_request] at h
  split at h
  · cases h
  · next signer' hsigner =>
      dsimp only at h
      split_ifs at h with htake
      · cases h
      · split at h
        · cases h
        · next ts' hts =>
            cases h
            rw [Bool.not_eq_true, Bool.not_eq_false'] at htake
            exact ⟨⟨hsigner, htake, hts⟩, rfl⟩

/-- Whether there is a token decides alone what the buckets have to do with an
admission. -/
theorem admit_buckets {kind : Request} {a : Arrival F} {b : StrMap (Bucket F)}
    (h : ∀ signer, requester V kind a.trust a.obj = .ok signer →
      (take V.limits s.buckets signer a.admitted).1 = (take V.limits b signer a.admitted).1) :
    (admit_request V s kind a).1 = (admit_request V { s with buckets := b } kind a).1 ∧
      ∃ b', (admit_request V { s with buckets := b } kind a).2 =
        { (admit_request V s kind a).2 with buckets := b' } := by
  rw [admit_request, admit_request]
  cases hsigner : requester V kind a.trust a.obj with
  | error d => exact ⟨rfl, b, rfl⟩
  | ok signer =>
      dsimp only
      rw [← h signer hsigner]
      split_ifs
      · exact ⟨rfl, _, rfl⟩
      · cases fresh V.limits a.admitted ((s.last_ts kind)[signer]?) (field a.obj "ts") with
        | error d => exact ⟨rfl, _, rfl⟩
        | ok ts => exact ⟨rfl, _, rfl⟩

/-! ## Copies -/

/-- The states are the same but for the buckets. -/
def SameButBuckets (s t : RendezvousState F) : Prop := ∃ b, t = { s with buckets := b }

/-- A copy is no request to admit: its signature or its signer is not accepted,
or the signer has no token, or its timestamp is not fresh. -/
def Unfit (V : RendezvousServer F) (s : RendezvousState F) (a : Arrival F) : Prop :=
  ∀ kind signer ts, requestKind a.obj = some kind → ¬ Admitted V s kind a signer ts

/-- The signer of a request has a token in the one state if in the other. -/
def SameBudget (V : RendezvousServer F) (s t : RendezvousState F) (a : Arrival F) : Prop :=
  ∀ kind signer, requestKind a.obj = some kind → requester V kind a.trust a.obj = .ok signer →
    (take V.limits s.buckets signer a.admitted).1 = (take V.limits t.buckets signer a.admitted).1

theorem serve_unfit {a : Arrival F} (h : Unfit V s a) :
    (serve V s a).1 = { s with buckets := (serve V s a).1.buckets } := by
  rw [serve]
  split
  · rfl
  · next hkind =>
      rw [on_register]
      split
      · next d s' hentry => exact admit_error hentry
      · next signer ts s' hentry => exact absurd (admit_ok hentry).1 (h _ _ _ hkind)
  · next hkind =>
      rw [on_lookup]
      split
      · next d s' hentry => exact admit_error hentry
      · next signer ts s' hentry => exact absurd (admit_ok hentry).1 (h _ _ _ hkind)

theorem liveEndpoints_buckets (a : Arrival F) (target : String) (b : StrMap (Bucket F)) :
    liveEndpoints V { s with buckets := b } a target = liveEndpoints V s a target := rfl

theorem serve_same {b : StrMap (Bucket F)} {a : Arrival F}
    (h : SameBudget V s { s with buckets := b } a) :
    SameButBuckets (serve V s a).1 (serve V { s with buckets := b } a).1 ∧
      (serve V s a).2 = (serve V { s with buckets := b } a).2 := by
  rw [serve, serve]
  split
  · exact ⟨⟨b, rfl⟩, rfl⟩
  · next hkind =>
      obtain ⟨hresult, b', hstate⟩ := admit_buckets (fun signer => h .register signer hkind)
      rw [on_register, on_register]
      rcases hs : admit_request V s .register a with ⟨r, s'⟩
      rcases ht : admit_request V { s with buckets := b } .register a with ⟨r', t'⟩
      rw [hs, ht] at hresult hstate
      cases hresult
      cases hstate
      cases r with
      | error d => exact ⟨⟨b', rfl⟩, rfl⟩
      | ok p =>
          obtain ⟨signer, ts⟩ := p
          dsimp only
          split
          · exact ⟨⟨b', rfl⟩, rfl⟩
          · exact ⟨⟨b', rfl⟩, rfl⟩
  · next hkind =>
      obtain ⟨hresult, b', hstate⟩ := admit_buckets (fun signer => h .lookup signer hkind)
      rw [on_lookup, on_lookup]
      rcases hs : admit_request V s .lookup a with ⟨r, s'⟩
      rcases ht : admit_request V { s with buckets := b } .lookup a with ⟨r', t'⟩
      rw [hs, ht] at hresult hstate
      cases hresult
      cases hstate
      cases r with
      | error d => exact ⟨⟨b', rfl⟩, rfl⟩
      | ok p =>
          obtain ⟨signer, ts⟩ := p
          dsimp only
          split
          · exact ⟨⟨b', rfl⟩, rfl⟩
          · next target htarget => exact ⟨⟨b', rfl⟩, rfl⟩

/-- Copies that are unfit, and leave the requests the tokens these would have
without them, change no answer and no registration. -/
theorem neutral_rendezvous (s : RendezvousState F) (es : List (Bool × Arrival F))
    (h : Inserted.AllMeet (serve V) (Unfit V) (SameBudget V) s s es) :
    Inserted.answers (serve V) s es = Inserted.answers (serve V) s (Inserted.originals es) ∧
      SameButBuckets (Inserted.after (serve V) s es)
        (Inserted.after (serve V) s (Inserted.originals es)) := by
  refine Inserted.answers_inserted ?_ ?_ es s s ⟨s.buckets, rfl⟩ h
  · rintro s _ a ⟨b, rfl⟩ hunfit
    exact ⟨b, by rw [serve_unfit hunfit]⟩
  · rintro s _ a ⟨b, rfl⟩ hsame
    exact serve_same hsame

/-! ## The newest registration -/

/-- The registry holds the newest registration of each DID. -/
structure Newest (s : RendezvousState F) : Prop where
  recorded : Recorded (s.last_ts .register) s.registered
  latest : ∀ (did : String) reg, s.registry[did]? = some reg → Latest s.registered did reg.ts

theorem newest_init : Newest ({} : RendezvousState F) where
  recorded := recorded_nil
  latest did reg h := by
    rw [StrMap.get_empty] at h
    cases h

variable [LawfulPyFloat F]

theorem Newest.served (h : Newest s) (a : Arrival F) : Newest (serve V s a).1 := by
  rw [serve]
  split
  · exact h
  · rw [on_register]
    split
    · next d s' hentry =>
        rw [admit_error hentry]
        exact ⟨h.recorded, h.latest⟩
    · next signer ts s' hentry =>
        obtain ⟨⟨-, -, hfresh⟩, hs'⟩ := admit_ok hentry
        split
        · rw [hs']
          refine ⟨?_, ?_⟩
          · dsimp only
            rw [Function.update_self]
            exact h.recorded.cons hfresh
          · intro did reg hreg
            dsimp only at hreg ⊢
            rw [StrMap.get_insert] at hreg
            split_ifs at hreg with heq
            · cases hreg
              subst heq
              exact h.recorded.latest hfresh
            · exact (h.latest did reg hreg).cons_other heq
        · rw [hs']
          refine ⟨?_, h.latest⟩
          dsimp only
          rw [Function.update_self]
          exact h.recorded.insert hfresh
  · rw [on_lookup]
    have hlookup : Newest (admit_request V s .lookup a).2 := by
      rcases hentry : admit_request V s .lookup a with ⟨r, s'⟩
      cases r with
      | error d =>
          rw [admit_error hentry]
          exact ⟨h.recorded, h.latest⟩
      | ok p =>
          obtain ⟨-, hs'⟩ := admit_ok hentry
          rw [hs']
          refine ⟨?_, h.latest⟩
          dsimp only
          rw [Function.update_of_ne (by decide)]
          exact h.recorded
    split
    · next hentry =>
        rw [hentry] at hlookup
        exact hlookup
    · next hentry =>
        rw [hentry] at hlookup
        dsimp only
        split <;> exact hlookup

theorem newest_rendezvous (es : List (Bool × Arrival F)) :
    Newest (Inserted.after (serve V) {} es) := by
  have hrun : ∀ s, Newest s → Newest (Inserted.after (serve V) s es) := by
    induction es with
    | nil => exact fun _ hs => hs
    | cons e es ih => exact fun s hs => ih _ (hs.served e.2)
  exact hrun {} newest_init

end

end Secdogie.Transport
