/-
# `Secdogie.Transport.Membership` — who is in the mesh, as everyone signs it

Each node signs a record of its own reachability, and a view keeps the record
with the newest `last_seen` for each DID, whatever order the records come in:
`merge` is a register for each DID (`records_deliverAll`), and
`converges_iff` says for which records the order does not matter.
-/
import Secdogie.Lib.LastWriter
import Secdogie.Lib.StrMap
import Secdogie.Identity.Num
import Secdogie.Identity.Signing
import Secdogie.Identity.Revocation
import Secdogie.Transport.Endpoint

namespace Secdogie.Transport

open Secdogie.Graph Secdogie.Identity

def RECORD_TYPE : String := "secdogie/membership/record/v1"
def ROLES : List String := ["relay", "rendezvous"]
def MAX_ADVERTISED_RELAYS : Nat := 4

/-- Built-in conversions of JSON values. -/
structure Builtins (F : Type) where
  str : Value F → String
  /-- `int(v)`: `some none` is `ValueError` or `TypeError`, `none` is `OverflowError` -/
  int : Value F → Option (Option Int)

structure PeerRecord (F : Type) where
  did : String
  last_seen : F
  endpoints : EndpointSet
  signed : Value F
  roles : List String
  relays : List String

section

variable {F : Type}

/-- The strings of a list; nothing of anything else. -/
def strings : Option (Value F) → List String
  | some (.arr a) => a.filterMap Value.asStr
  | _ => []

/-- `dict.fromkeys`: each once, in order. -/
def unique (l : List String) : List String := l.reverse.dedup.reverse

variable (B : Builtins F)

/-- Adds the endpoint of an item, if it is one; `none` when this raises. -/
def addItem (es : EndpointSet) (item : Value F) : Option EndpointSet :=
  match field item "kind", field item "host", field item "port" with
  | some kind, some host, some port =>
      match B.int port with
      | none => none
      | some none => some es
      | some (some port) =>
          match Endpoint.make (B.str kind) (B.str host) port with
          | none => some es
          | some e => some (EndpointSet.add es e)
  | _, _, _ => some es

variable [PyFloat F] (C : Crypto) (allowlist : String → Bool)

/-- `obj.get("endpoints") or []`, item by item: what is false counts as
missing, texts and objects have no items that are objects. -/
def endpointsOf (v : Option (Value F)) : Option EndpointSet :=
  match v with
  | some (.arr items) => items.foldlM (addItem B) []
  | none | some .null | some (.bool false) | some (.int 0) | some (.str _) | some (.obj _) => some []
  | some (.float f) =>
      if (PyFloat.ofInt 0).any (fun z => PyFloat.le f z && PyFloat.le z f) then some [] else none
  | _ => none

/-- The record, when `obj` is one, signed by its own DID; `none` also when
verifying raises. -/
def verify_record (now : Option F) (max_future_skew : F) (obj : Value F) : Option (PeerRecord F) :=
  if textField obj "type" ≠ some RECORD_TYPE then none
  else
    match verifyPayload C allowlist obj with
    | (true, some signer) =>
        if textField obj "did" ≠ some signer then none
        else
          match (field obj "last_seen").bind toFloat, endpointsOf B (field obj "endpoints") with
          | some last_seen, some endpoints =>
              if now.any (fun t => PyFloat.lt (PyFloat.add t max_future_skew) last_seen) then none
              else
                let roles := ROLES.filter (fun r => decide (r ∈ strings (field obj "roles")))
                let relays := unique ((strings (field obj "relays")).filter (· ≠ signer))
                some ⟨signer, last_seen, endpoints, obj, roles, relays.take MAX_ADVERTISED_RELAYS⟩
          | _, _ => none
    | _ => none

end

/-- DID to latest record. -/
abbrev MembershipView (F : Type) := StrMap (PeerRecord F)

section

variable {F : Type} [PyFloat F]

/-- A verified record reaches a view. -/
def deliver (view : MembershipView F) (rec : PeerRecord F) : MembershipView F :=
  match view[rec.did]? with
  | none => view.insert rec.did rec
  | some cur => if PyFloat.le rec.last_seen cur.last_seen then view else view.insert rec.did rec

/-- What is delivered to a view: a signed object, and the time to check it
against, if one is given. -/
abbrev Delivery (F : Type) := Value F × Option F

variable (B : Builtins F) (C : Crypto) (allowlist : String → Bool) (skew : F)

def merge_record (view : MembershipView F) (d : Delivery F) : MembershipView F :=
  match verify_record B C allowlist d.2 skew d.1 with
  | none => view
  | some rec => deliver view rec

def mergeRecords (ds : List (Delivery F)) : MembershipView F :=
  ds.foldl (merge_record B C allowlist skew) ∅

/-- The records that verify among the deliveries. -/
def verified (ds : List (Delivery F)) : List (PeerRecord F) :=
  ds.filterMap (fun d => verify_record B C allowlist d.2 skew d.1)

/-- The records of one DID. -/
def recordsOf (did : String) (recs : List (PeerRecord F)) : List (PeerRecord F) :=
  recs.filter (fun r => decide (r.did = did))

/-- No newer than what is kept. -/
def noNewer (a b : PeerRecord F) : Bool := PyFloat.le a.last_seen b.last_seen

def undated (r : PeerRecord F) : Prop := PyFloat.isNaN r.last_seen = true

/-- Two views to which the same verified records are delivered, in any order
and with any repetitions, end with the same record for every DID. -/
def Converges (ds : List (Delivery F)) : Prop :=
  ∀ ds', (∀ r, r ∈ verified B C allowlist skew ds' ↔ r ∈ verified B C allowlist skew ds) →
    ∀ did : String, (mergeRecords B C allowlist skew ds')[did]? =
      (mergeRecords B C allowlist skew ds)[did]?

variable {B C allowlist skew}

theorem deliver_get (view : MembershipView F) (rec : PeerRecord F) (did : String) :
    (deliver view rec)[did]? =
      if rec.did = did then LastWriter.newer noNewer view[did]? rec else view[did]? := by
  rw [deliver]
  split_ifs with hdid
  · subst hdid
    cases hcur : view[rec.did]? with
    | none => simp [LastWriter.newer]
    | some cur =>
        rw [LastWriter.newer]
        dsimp only
        by_cases hle : noNewer rec cur = true
        · have hle' : PyFloat.le rec.last_seen cur.last_seen = true := hle
          rw [if_pos hle, if_pos hle', hcur]
        · have hle' : ¬ PyFloat.le rec.last_seen cur.last_seen = true := hle
          rw [if_neg hle, if_neg hle']
          simp
  · cases hcur : view[rec.did]? with
    | none => simp [hdid]
    | some cur =>
        dsimp only
        split_ifs
        · rfl
        · simp [hdid]

/-- A view is a register for each DID. -/
theorem mergeRecords_get (ds : List (Delivery F)) (did : String) :
    (mergeRecords B C allowlist skew ds)[did]? =
      LastWriter.newest noNewer (recordsOf did (verified B C allowlist skew ds)) := by
  induction ds using List.reverseRecOn with
  | nil => simp [mergeRecords, verified, recordsOf, LastWriter.newest]
  | append_singleton ds d ih =>
      have hfold : mergeRecords B C allowlist skew (ds ++ [d]) =
          merge_record B C allowlist skew (mergeRecords B C allowlist skew ds) d := by
        rw [mergeRecords, List.foldl_append]
        rfl
      have hverified : verified B C allowlist skew (ds ++ [d]) = verified B C allowlist skew ds ++
          (verify_record B C allowlist d.2 skew d.1).toList := by
        rw [verified, List.filterMap_append, verified]
        cases h : verify_record B C allowlist d.2 skew d.1 <;> simp [h]
      rw [hfold, hverified, merge_record]
      cases h : verify_record B C allowlist d.2 skew d.1 with
      | none => simpa using ih
      | some rec =>
          dsimp only
          rw [deliver_get, ih, recordsOf, recordsOf, Option.toList_some, List.filter_append]
          split_ifs with hdid
          · rw [List.filter_cons_of_pos (by simpa using hdid), List.filter_nil,
              LastWriter.newest_concat]
          · rw [List.filter_cons_of_neg (by simpa using hdid), List.filter_nil, List.append_nil]

omit [PyFloat F] in
theorem mem_recordsOf {did : String} {recs : List (PeerRecord F)} {r : PeerRecord F} :
    r ∈ recordsOf did recs ↔ r ∈ recs ∧ r.did = did := by
  rw [recordsOf, List.mem_filter, decide_eq_true_eq]

theorem verified_append (ds ds' : List (Delivery F)) :
    verified B C allowlist skew (ds ++ ds') =
      verified B C allowlist skew ds ++ verified B C allowlist skew ds' := by
  simp [verified]

variable (B C allowlist skew) in
/-- Deliveries of any records that were delivered. -/
theorem exists_verified (ds : List (Delivery F)) : ∀ (recs : List (PeerRecord F)),
    (∀ r ∈ recs, r ∈ verified B C allowlist skew ds) →
      ∃ ds', verified B C allowlist skew ds' = recs := by
  intro recs
  induction recs with
  | nil => exact fun _ => ⟨[], rfl⟩
  | cons r recs ih =>
      intro h
      obtain ⟨ds', hds'⟩ := ih fun r' hr' => h r' (List.mem_cons_of_mem _ hr')
      obtain ⟨d, hd, hr⟩ := List.mem_filterMap.mp (h r List.mem_cons_self)
      refine ⟨d :: ds', ?_⟩
      have hcons : verified B C allowlist skew (d :: ds') = r :: verified B C allowlist skew ds' := by
        simp [verified, hr]
      rw [hcons, hds']

theorem noNewer_total [LawfulPyFloat F] (a b : PeerRecord F) (ha : ¬ undated a) (hb : ¬ undated b) :
    noNewer a b = true ∨ noNewer b a = true :=
  LawfulPyFloat.le_total _ _ (by simpa [undated] using ha) (by simpa [undated] using hb)

theorem noNewer_trans [LawfulPyFloat F] (a b c : PeerRecord F) (hab : noNewer a b = true)
    (hbc : noNewer b c = true) : noNewer a c = true :=
  LawfulPyFloat.le_trans _ _ _ hab hbc

theorem dated_of_noNewer [LawfulPyFloat F] (a b : PeerRecord F) (h : noNewer a b = true) :
    ¬ undated a ∧ ¬ undated b := by
  obtain ⟨ha, hb⟩ := LawfulPyFloat.not_nan_of_le _ _ h
  simp [undated, ha, hb]

/-- The views converge just when, for every DID, there is one record only, or
every record has a date and the newest is one. -/
theorem converges_iff [LawfulPyFloat F] (B : Builtins F) (C : Crypto) (allowlist : String → Bool)
    (skew : F) (ds : List (Delivery F)) :
    Converges B C allowlist skew ds ↔ ∀ did, LastWriter.Settles noNewer undated
      {r | r ∈ verified B C allowlist skew ds ∧ r.did = did} := by
  have hset : ∀ did, {r | r ∈ verified B C allowlist skew ds ∧ r.did = did} =
      {r | r ∈ recordsOf did (verified B C allowlist skew ds)} := fun did =>
    Set.ext fun r => mem_recordsOf.symm
  have hsettles : ∀ did, LastWriter.Settles noNewer undated
      {r | r ∈ recordsOf did (verified B C allowlist skew ds)} ↔
        ∀ recs, (∀ r, r ∈ recs ↔ r ∈ recordsOf did (verified B C allowlist skew ds)) →
          LastWriter.newest noNewer recs =
            LastWriter.newest noNewer (recordsOf did (verified B C allowlist skew ds)) := fun did =>
    LastWriter.settles_iff noNewer_total noNewer_trans dated_of_noNewer
  constructor
  · intro h did
    rw [hset, hsettles]
    intro recs hrecs
    -- the records of the other DIDs are delivered as they were
    obtain ⟨ds', hds'⟩ := exists_verified B C allowlist skew ds recs fun r hr => (mem_recordsOf.mp ((hrecs r).mp hr)).1
    obtain ⟨ds₂, hds₂⟩ := exists_verified B C allowlist skew ds
      ((verified B C allowlist skew ds).filter (fun r => decide (r.did ≠ did)))
      fun r hr => (List.mem_filter.mp hr).1
    have hsame : ∀ r, r ∈ verified B C allowlist skew (ds' ++ ds₂) ↔
        r ∈ verified B C allowlist skew ds := fun r => by
      rw [verified_append, hds', hds₂, List.mem_append, hrecs, mem_recordsOf, List.mem_filter,
        decide_eq_true_eq]
      by_cases hdid : r.did = did <;> simp [hdid]
    have hget := h (ds' ++ ds₂) hsame did
    rw [mergeRecords_get, mergeRecords_get, verified_append, hds', hds₂] at hget
    have hown : recordsOf did (recs ++
        (verified B C allowlist skew ds).filter (fun r => decide (r.did ≠ did))) = recs := by
      rw [recordsOf, List.filter_append, List.filter_filter]
      have h1 : recs.filter (fun r => decide (r.did = did)) = recs :=
        List.filter_eq_self.mpr fun r hr => decide_eq_true (mem_recordsOf.mp ((hrecs r).mp hr)).2
      have h2 : (verified B C allowlist skew ds).filter
          (fun r => decide (r.did = did) && decide (r.did ≠ did)) = [] :=
        List.filter_eq_nil_iff.mpr fun r _ => by simp
      rw [h1, h2, List.append_nil]
    rwa [hown] at hget
  · intro h ds' hsame did
    rw [mergeRecords_get, mergeRecords_get]
    refine (hsettles did).mp (hset did ▸ h did) _ fun r => ?_
    rw [mem_recordsOf, mem_recordsOf, hsame]

end

/-! ## A node without a date -/

namespace Undated

def builtins : Builtins (Option Int) where
  str _ := ""
  int _ := some none

/-- A record of one DID with this `last_seen`. -/
def record (last_seen : Value (Option Int)) : Value (Option Int) :=
  .obj [("did", .str "did:p"), ("endpoints", .arr []), ("last_seen", last_seen),
    ("sig", .str ""), ("signer", .str "did:p"), ("type", .str RECORD_TYPE)]

theorem verify_record_eq (last_seen : Value (Option Int)) {f : Option Int}
    (h : toFloat last_seen = some f) : verify_record builtins .lenient (fun _ => true) none
      (some 300) (record last_seen) = some ⟨"did:p", f, [], record last_seen, [], []⟩ := by
  have htype : textField (record last_seen) "type" = some RECORD_TYPE := by
    simp [textField, field, record, Value.asObj, objGet, Value.asStr]
  have hverify : verifyPayload .lenient (fun _ => true) (record last_seen) = (true, some "did:p") := by
    simp [verifyPayload, record, Value.asObj, objGet, Crypto.lenient]
  have hdid : textField (record last_seen) "did" = some "did:p" := by
    simp [textField, field, record, Value.asObj, objGet, Value.asStr]
  have hseen : (field (record last_seen) "last_seen").bind toFloat = some f := by
    simp [field, record, Value.asObj, objGet, h]
  have hendpoints : field (record last_seen) "endpoints" = some (.arr []) := by
    simp [field, record, Value.asObj, objGet]
  have hroles : field (record last_seen) "roles" = none := by
    simp [field, record, Value.asObj, objGet]
  have hrelays : field (record last_seen) "relays" = none := by
    simp [field, record, Value.asObj, objGet]
  rw [verify_record, htype, hverify, hdid, hseen, hendpoints, hroles, hrelays]
  simp [endpointsOf, strings, unique]

/-- The record dated 1 and the one dated NaN. -/
def dated : Delivery (Option Int) := (record (.float (some 1)), none)

def undatedOne : Delivery (Option Int) := (record (.float none), none)

end Undated

/-- A record whose `last_seen` is NaN replaces any other and is replaced by any
other: the last one delivered stays. -/
theorem converges_undated :
    ¬ Converges Undated.builtins .lenient (fun _ => true) (some 300)
      [Undated.dated, Undated.undatedOne] := by
  have hdated := Undated.verify_record_eq (.float (some 1)) rfl
  have hundated := Undated.verify_record_eq (.float none) rfl
  intro h
  have hget := h [Undated.undatedOne, Undated.dated] (fun r => by
    simp [verified, Undated.dated, Undated.undatedOne, hdated, hundated, or_comm]) "did:p"
  rw [mergeRecords_get, mergeRecords_get] at hget
  simp only [verified, Undated.dated, Undated.undatedOne, List.filterMap_cons, hdated, hundated,
    List.filterMap_nil] at hget
  have hseen := congrArg (Option.map PeerRecord.last_seen) hget
  simp [recordsOf, LastWriter.newest, LastWriter.newer, noNewer, PyFloat.le] at hseen

/-- One record, delivered twice, is what every order ends with. -/
theorem converges_iff_dated :
    Converges Undated.builtins .lenient (fun _ => true) (some 300)
      [Undated.dated, Undated.dated] := by
  have hdated := Undated.verify_record_eq (.float (some 1)) rfl
  refine (converges_iff _ _ _ _ _).mpr fun did => .inl ?_
  rintro r ⟨hr, -⟩ r' ⟨hr', -⟩
  simp only [verified, Undated.dated, List.filterMap_cons, hdated, List.filterMap_nil,
    List.mem_cons, List.not_mem_nil, or_false, or_self] at hr hr'
  rw [hr, hr']

end Secdogie.Transport
