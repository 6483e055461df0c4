/-
# `Secdogie.Transport.Inbound` — records from outside, and what escapes from reading them

A membership record and a list of endpoints are read with conversions that
raise, and what these raise is caught only in part: `float` and `int` overflow,
a number is nothing to go through, a list is in no set.  Here the exceptions
that are not caught are kept apart from the ones that are.

`inbound_total_iff` says for which records and lists reading them comes to an
end in the ordinary way, with the endpoints of the entries that are well-formed.
-/
import Secdogie.Transport.Rendezvous

namespace Secdogie.Transport.Inbound

open Secdogie.Graph Secdogie.Identity

/-- What is raised and not caught. -/
inductive Raised where
  | overflowError
  | typeError
deriving DecidableEq

section

variable {F : Type} [PyFloat F]

/-- `float(obj[k])`; `none` is an exception that is caught. -/
def floatOf : Option (Value F) → Except Raised (Option F)
  | none => .ok none
  | some (.int n) =>
      match PyFloat.ofInt n with
      | none => .error .overflowError
      | some f => .ok (some f)
  | some v => .ok (toFloat v)

/-- `items or []`, as something to go through. -/
def iterate (v : Option (Value F)) : Except Raised (List (Value F)) :=
  match itemsOf v with
  | none => .error .typeError
  | some items => .ok items

variable (B : Builtins F)

omit [PyFloat F] in
/-- `int(v)`; `none` is an exception that is caught. -/
def intOf (v : Value F) : Except Raised (Option Int) :=
  match B.int v with
  | none => .error .overflowError
  | some n => .ok n

/-- `Endpoint(str(kind), str(host), int(port))`; `none` is an exception that is caught. -/
def endpoint (kind host port : Value F) : Except Raised (Option Endpoint) :=
  (intOf B port).map (fun n => n.bind (Endpoint.make (B.str kind) (B.str host)))

/-- The endpoint of an entry of a record; none if it is malformed. -/
def endpointOf (item : Value F) : Except Raised (Option Endpoint) :=
  match field item "kind", field item "host", field item "port" with
  | some kind, some host, some port => endpoint B kind host port
  | _, _, _ => .ok none

/-- `kind in allowed_kinds`; any kind will do when none are given. -/
def isAllowed (allowed_kinds : Option (List String)) (kind : Value F) : Except Raised Bool :=
  match allowed_kinds with
  | none => .ok true
  | some kinds =>
      match kind with
      | .arr _ | .obj _ => .error .typeError
      | .str s => .ok (decide (s ∈ kinds))
      | _ => .ok false

/-- The endpoint of an item that a node reports; none if it is malformed or not of an allowed
kind. -/
def reportedOf (allowed_kinds : Option (List String)) (item : Value F) :
    Except Raised (Option Endpoint) :=
  if item.asObj.isNone then .ok none
  else
    let kind := (field item "kind").getD .null
    match isAllowed allowed_kinds kind with
    | .error e => .error e
    | .ok false => .ok none
    | .ok true =>
        match field item "host", field item "port" with
        | some host, some port => endpoint B kind host port
        | _, _ => .ok none

/-- `es.add` of what an entry comes to, if it comes to something. -/
def addIf (es : EndpointSet) (e : Option Endpoint) : EndpointSet := e.elim es (EndpointSet.add es)

/-- The loop over the entries. -/
def collect (read : Value F → Except Raised (Option Endpoint)) (items : List (Value F)) :
    Except Raised EndpointSet :=
  items.foldlM (fun es item => (read item).map (addIf es)) []

/-- `_endpoints_from_json` -/
def endpoints_from_json (allowed_kinds : Option (List String)) (items : Option (Value F)) :
    Except Raised EndpointSet :=
  match iterate items with
  | .error e => .error e
  | .ok items => collect (reportedOf B allowed_kinds) items

variable (C : Crypto) (allowlist : String → Bool)

/-- Claims to be from too far in the future. -/
def isAhead (now : Option F) (max_future_skew last_seen : F) : Bool :=
  now.any (fun t => PyFloat.lt (PyFloat.add t max_future_skew) last_seen)

/-- `verify_record`, with what it raises. -/
def verify_record (now : Option F) (max_future_skew : F) (obj : Value F) :
    Except Raised (Option (PeerRecord F)) :=
  if textField obj "type" ≠ some RECORD_TYPE then .ok none
  else
    match verifyPayload C allowlist obj with
    | (true, some signer) =>
        if textField obj "did" ≠ some signer then .ok none
        else
          match floatOf (field obj "last_seen") with
          | .error e => .error e
          | .ok none => .ok none
          | .ok (some last_seen) =>
              if isAhead now max_future_skew last_seen then .ok none
              else
                match iterate (field obj "endpoints") with
                | .error e => .error e
                | .ok items =>
                    match collect (endpointOf B) items with
                    | .error e => .error e
                    | .ok endpoints =>
                        let roles := ROLES.filter (fun r => decide (r ∈ strings (field obj "roles")))
                        let relays := unique ((strings (field obj "relays")).filter (· ≠ signer))
                        .ok (some ⟨signer, last_seen, endpoints, obj, roles,
                          relays.take MAX_ADVERTISED_RELAYS⟩)
    | _ => .ok none

end

/-! ## The loop -/

section

variable {F : Type} {read : Value F → Except Raised (Option Endpoint)}

/-- The endpoints of the entries that are well-formed, in their order. -/
def wellFormed (read : Value F → Except Raised (Option Endpoint)) (items : List (Value F)) :
    List Endpoint :=
  items.filterMap (fun item => (read item).toOption.join)

/-- The set that well-formed entries make. -/
def kept (read : Value F → Except Raised (Option Endpoint)) (items : List (Value F)) : EndpointSet :=
  (wellFormed read items).foldl EndpointSet.add []

/-- The loop ends if no entry raises, and has added the well-formed ones. -/
theorem collect_from : ∀ (items : List (Value F)) (es : EndpointSet),
    (∀ item ∈ items, ∃ e, read item = .ok e) →
      items.foldlM (fun es item => (read item).map (addIf es)) es =
        .ok ((wellFormed read items).foldl EndpointSet.add es)
  | [], es, _ => rfl
  | item :: items, es, h => by
      obtain ⟨e, he⟩ := h item List.mem_cons_self
      have ih := collect_from items (addIf es e) fun x hx => h x (List.mem_cons_of_mem _ hx)
      rw [List.foldlM_cons, he]
      refine ih.trans ?_
      cases e with
      | none => simp [wellFormed, he, addIf, Except.toOption]
      | some e => simp [wellFormed, he, addIf, Except.toOption]

theorem collect_eq (items : List (Value F)) (h : ∀ item ∈ items, ∃ e, read item = .ok e) :
    collect read items = .ok (kept read items) := collect_from items [] h

theorem collect_raises : ∀ (items : List (Value F)) (es : EndpointSet) {item : Value F} {x : Raised},
    item ∈ items → read item = .error x →
      ∃ y, items.foldlM (fun es item => (read item).map (addIf es)) es = .error y
  | a :: items, es, item, x, hmem, hraise => by
      rw [List.foldlM_cons]
      cases ha : read a with
      | error y => exact ⟨y, rfl⟩
      | ok e =>
          have hne : item ∈ items := by
            rcases List.mem_cons.mp hmem with rfl | hmem
            · rw [ha] at hraise
              exact nomatch hraise
            · exact hmem
          exact collect_raises items (addIf es e) hne hraise

theorem collect_ok_iff {items : List (Value F)} {es : EndpointSet} :
    collect read items = .ok es ↔ (∀ item ∈ items, ∃ e, read item = .ok e) ∧ es = kept read items := by
  constructor
  · intro h
    have hall : ∀ item ∈ items, ∃ e, read item = .ok e := by
      intro item hmem
      cases hread : read item with
      | ok e => exact ⟨e, rfl⟩
      | error x =>
          obtain ⟨y, hy⟩ := collect_raises items [] hmem hread
          exact nomatch h.symm.trans hy
    refine ⟨hall, ?_⟩
    rw [collect_eq items hall] at h
    exact (Except.ok.inj h).symm
  · rintro ⟨hall, rfl⟩
    exact collect_eq items hall

end

/-! ## When nothing escapes -/

section

variable {F : Type} [PyFloat F] (B : Builtins F) (C : Crypto) (allowlist : String → Bool)

/-- Missing, false, or something with items. -/
def Iterable (v : Option (Value F)) : Prop := itemsOf v ≠ none

/-- What is gone through. -/
def items (v : Option (Value F)) : List (Value F) := (itemsOf v).getD []

/-- An entry whose port overflows: it is infinite. -/
def Overflows (item : Value F) : Prop := (field item "port").any (fun port => (B.int port).isNone)

/-- A record signed by the DID that it is about, who is trusted. -/
def SelfSigned (obj : Value F) : Prop :=
  textField obj "type" = some RECORD_TYPE ∧
    ∃ signer, verifyPayload C allowlist obj = (true, some signer) ∧ textField obj "did" = some signer

/-- A whole number that is too large for a float. -/
def TooLarge (v : Option (Value F)) : Prop := ∃ n, v = some (.int n) ∧ PyFloat.ofInt (F := F) n = none

/-- The entries of the record are read without raising. -/
def EntriesReadable (v : Option (Value F)) : Prop :=
  Iterable v ∧ ∀ item ∈ items v, (field item "kind").isSome → (field item "host").isSome →
    ¬ Overflows B item

/-- If it is self-signed, its date is not too large, and if this is not too far ahead, its
entries are readable. -/
def RecordReadable (now : Option F) (max_future_skew : F) (obj : Value F) : Prop :=
  SelfSigned C allowlist obj → ¬ TooLarge (field obj "last_seen") ∧
    ∀ last_seen, (field obj "last_seen").bind toFloat = some last_seen →
      isAhead now max_future_skew last_seen = false → EntriesReadable B (field obj "endpoints")

/-- A list or an object. -/
def Unhashable : Value F → Prop
  | .arr _ | .obj _ => True
  | _ => False

/-- The reported items are read without raising. -/
def ReportReadable (allowed_kinds : Option (List String)) (v : Option (Value F)) : Prop :=
  Iterable v ∧ ∀ item ∈ items v, item.asObj.isSome →
    (allowed_kinds.isSome → ∀ kind, field item "kind" = some kind → ¬ Unhashable kind) ∧
    ((∀ kinds, allowed_kinds = some kinds → ∃ kind ∈ kinds, textField item "kind" = some kind) →
      (field item "host").isSome → ¬ Overflows B item)

/-- A result comes of it, and if this is a record, its endpoints are the well-formed ones. -/
def RecordTotal (now : Option F) (max_future_skew : F) (obj : Value F) : Prop :=
  ∃ r, verify_record B C allowlist now max_future_skew obj = .ok r ∧
    ∀ rec, r = some rec → rec.endpoints = kept (endpointOf B) (items (field obj "endpoints"))

/-- A set comes of it, of the well-formed endpoints. -/
def ReportTotal (allowed_kinds : Option (List String)) (v : Option (Value F)) : Prop :=
  endpoints_from_json B allowed_kinds v = .ok (kept (reportedOf B allowed_kinds) (items v))

variable {B C allowlist}

omit [PyFloat F] in
theorem intOf_ok_iff {port : Value F} : (∃ n, intOf B port = .ok n) ↔ (B.int port).isSome := by
  rw [intOf]
  cases B.int port with
  | none => simp
  | some n => simp

omit [PyFloat F] in
theorem endpoint_ok_iff {kind host port : Value F} :
    (∃ e, endpoint B kind host port = .ok e) ↔ (B.int port).isSome := by
  rw [← intOf_ok_iff, endpoint]
  cases intOf B port with
  | error x => simp [Except.map]
  | ok n => simp [Except.map]

omit [PyFloat F] in
theorem not_overflows_iff {item port : Value F} (h : field item "port" = some port) :
    ¬ Overflows B item ↔ (B.int port).isSome := by
  rw [Overflows, h, Option.any_some, Bool.not_eq_true, Option.isNone_eq_false_iff]

omit [PyFloat F] in
theorem not_overflows_of_none {item : Value F} (h : field item "port" = none) :
    ¬ Overflows B item := by
  rw [Overflows, h]
  exact Bool.false_ne_true

omit [PyFloat F] in
theorem endpointOf_ok_iff {item : Value F} :
    (∃ e, endpointOf B item = .ok e) ↔
      ((field item "kind").isSome → (field item "host").isSome → ¬ Overflows B item) := by
  rw [endpointOf]
  split
  · next kind host port hkind hhost hport =>
      rw [endpoint_ok_iff, not_overflows_iff hport, hkind, hhost]
      simp
  · next hmissing =>
      refine iff_of_true ⟨none, rfl⟩ fun hkind hhost => not_overflows_of_none ?_
      obtain ⟨kind, hkind⟩ := Option.isSome_iff_exists.mp hkind
      obtain ⟨host, hhost⟩ := Option.isSome_iff_exists.mp hhost
      cases hport : field item "port" with
      | none => rfl
      | some port => exact absurd hport (hmissing kind host port hkind hhost)

theorem iterate_ok_iff {v : Option (Value F)} {l : List (Value F)} :
    iterate v = .ok l ↔ Iterable v ∧ l = items v := by
  rw [iterate, Iterable, items]
  cases itemsOf v with
  | none => simp
  | some items =>
      rw [Option.getD_some]
      exact ⟨fun h => ⟨Option.some_ne_none _, (Except.ok.inj h).symm⟩, fun h => by rw [h.2]⟩

omit [PyFloat F] in
/-- An item whose kind is allowed is read like an entry. -/
theorem host_port_ok_iff {item kind : Value F} :
    (∃ e, (match field item "host", field item "port" with
      | some host, some port => endpoint B kind host port
      | _, _ => .ok none) = .ok e) ↔ ((field item "host").isSome → ¬ Overflows B item) := by
  split
  · next host port hhost hport =>
      rw [endpoint_ok_iff, not_overflows_iff hport, hhost]
      simp
  · next hmissing =>
      refine iff_of_true ⟨none, rfl⟩ fun hhost => not_overflows_of_none ?_
      obtain ⟨host, hhost⟩ := Option.isSome_iff_exists.mp hhost
      cases hport : field item "port" with
      | none => rfl
      | some port => exact absurd hport (hmissing host port hhost)

omit [PyFloat F] in
/-- Whether a kind is allowed can be asked of what is hashable. -/
theorem isAllowed_cases (kinds : List String) (item : Value F) :
    (∃ kind, field item "kind" = some kind ∧ Unhashable kind ∧
      isAllowed (some kinds) ((field item "kind").getD .null) = .error .typeError) ∨
    ((∀ kind, field item "kind" = some kind → ¬ Unhashable kind) ∧
      isAllowed (some kinds) ((field item "kind").getD .null) =
        .ok (decide (∃ kind ∈ kinds, textField item "kind" = some kind))) := by
  rw [textField]
  cases hkind : field item "kind" with
  | none => exact .inr ⟨fun kind h => (by cases h), by simp [isAllowed]⟩
  | some kind =>
      cases kind with
      | arr a => exact .inl ⟨_, rfl, trivial, rfl⟩
      | obj m => exact .inl ⟨_, rfl, trivial, rfl⟩
      | str s =>
          refine .inr ⟨fun kind h => ?_, by simp [isAllowed, Value.asStr]⟩
          rw [← Option.some.inj h]
          exact not_false
      | _ =>
          refine .inr ⟨fun kind h => ?_, by simp [isAllowed, Value.asStr]⟩
          rw [← Option.some.inj h]
          exact not_false

omit [PyFloat F] in
theorem reportedOf_ok_iff {allowed_kinds : Option (List String)} {item : Value F} :
    (∃ e, reportedOf B allowed_kinds item = .ok e) ↔ (item.asObj.isSome →
      (allowed_kinds.isSome → ∀ kind, field item "kind" = some kind → ¬ Unhashable kind) ∧
      ((∀ kinds, allowed_kinds = some kinds → ∃ kind ∈ kinds, textField item "kind" = some kind) →
        (field item "host").isSome → ¬ Overflows B item)) := by
  rw [reportedOf]
  split
  · next hobj =>
      refine iff_of_true ⟨none, rfl⟩ fun h => ?_
      rw [Option.isNone_iff_eq_none.mp hobj] at h
      exact nomatch h
  · next hobj =>
      have hsome : item.asObj.isSome = true := by
        rw [Option.isNone_iff_eq_none] at hobj
        exact Option.isSome_iff_ne_none.mpr hobj
      rw [imp_iff_right hsome]
      cases allowed_kinds with
      | none =>
          have hany : isAllowed none ((field item "kind").getD .null) = .ok true := rfl
          dsimp only
          rw [hany]
          dsimp only
          rw [host_port_ok_iff]
          simp
      | some kinds =>
          dsimp only
          rcases isAllowed_cases kinds item with ⟨kind, hkind, hbad, hraise⟩ | ⟨hgood, hallowed⟩
          · rw [hraise]
            refine iff_of_false (fun ⟨_, h⟩ => nomatch h) fun h => h.1 rfl kind hkind hbad
          · rw [hallowed]
            by_cases hin : ∃ kind ∈ kinds, textField item "kind" = some kind
            · rw [decide_eq_true hin]
              dsimp only
              rw [host_port_ok_iff]
              refine ⟨fun h => ⟨fun _ => hgood, fun _ => h⟩, fun h => h.2 fun kinds' heq => ?_⟩
              rwa [← Option.some.inj heq]
            · rw [decide_eq_false hin]
              exact iff_of_true ⟨none, rfl⟩
                ⟨fun _ => hgood, fun h => absurd (h kinds rfl) hin⟩

theorem reportTotal_iff {allowed_kinds : Option (List String)} {v : Option (Value F)} :
    ReportTotal B allowed_kinds v ↔ ReportReadable B allowed_kinds v := by
  rw [ReportTotal, ReportReadable, endpoints_from_json]
  cases hiter : iterate v with
  | error x =>
      refine iff_of_false (fun h => nomatch h) fun h => ?_
      have hok : iterate v = .ok (items v) := iterate_ok_iff.mpr ⟨h.1, rfl⟩
      exact nomatch hiter.symm.trans hok
  | ok l =>
      obtain ⟨hcan, rfl⟩ := iterate_ok_iff.mp hiter
      dsimp only
      rw [collect_ok_iff, and_iff_left rfl, and_iff_right hcan]
      exact forall₂_congr fun item _ => reportedOf_ok_iff

/-- The entries are gone through to the end if they are readable. -/
theorem entries_ok_iff {v : Option (Value F)} {es : EndpointSet} :
    (∃ l, iterate v = .ok l ∧ collect (endpointOf B) l = .ok es) ↔
      EntriesReadable B v ∧ es = kept (endpointOf B) (items v) := by
  constructor
  · rintro ⟨l, hiter, hcollect⟩
    obtain ⟨hcan, rfl⟩ := iterate_ok_iff.mp hiter
    obtain ⟨hall, hes⟩ := collect_ok_iff.mp hcollect
    exact ⟨⟨hcan, fun item hitem => endpointOf_ok_iff.mp (hall item hitem)⟩, hes⟩
  · rintro ⟨⟨hcan, hall⟩, hes⟩
    exact ⟨items v, iterate_ok_iff.mpr ⟨hcan, rfl⟩,
      collect_ok_iff.mpr ⟨fun item hitem => endpointOf_ok_iff.mpr (hall item hitem), hes⟩⟩

theorem floatOf_cases (v : Option (Value F)) :
    (TooLarge v ∧ floatOf v = .error .overflowError) ∨
      (¬ TooLarge v ∧ floatOf v = .ok (v.bind toFloat)) := by
  cases v with
  | none => exact .inr ⟨fun ⟨n, h, _⟩ => (nomatch h), rfl⟩
  | some v =>
      cases v with
      | int n =>
          rw [floatOf, Option.bind_some, toFloat]
          cases hn : PyFloat.ofInt (F := F) n with
          | none => exact .inl ⟨⟨n, rfl, hn⟩, rfl⟩
          | some f =>
              refine .inr ⟨fun ⟨m, hm, hnone⟩ => ?_, rfl⟩
              obtain rfl := Value.int.inj (Option.some.inj hm)
              exact nomatch hn.symm.trans hnone
      | _ => exact .inr ⟨fun ⟨n, h, _⟩ => (nomatch h), rfl⟩

theorem recordTotal_iff {now : Option F} {max_future_skew : F} {obj : Value F} :
    RecordTotal B C allowlist now max_future_skew obj ↔
      RecordReadable B C allowlist now max_future_skew obj := by
  have hnone : ∀ {run : Except Raised (Option (PeerRecord F))}, run = .ok none →
      ∃ r, run = .ok r ∧ ∀ rec, r = some rec →
        rec.endpoints = kept (endpointOf B) (items (field obj "endpoints")) :=
    fun h => ⟨none, h, fun rec hrec => by cases hrec⟩
  rw [RecordTotal, RecordReadable, verify_record]
  by_cases htype : textField obj "type" = some RECORD_TYPE
  swap
  · rw [if_pos htype]
    exact iff_of_true (hnone rfl) fun h => absurd h.1 htype
  rw [if_neg (not_not.mpr htype)]
  split
  · next signer hverify =>
      by_cases hdid : textField obj "did" = some signer
      swap
      · rw [if_pos hdid]
        refine iff_of_true (hnone rfl) ?_
        rintro ⟨-, signer', hverify', hdid'⟩
        rw [hverify] at hverify'
        obtain rfl := Option.some.inj (Prod.mk.inj hverify').2
        exact absurd hdid' hdid
      have hself : SelfSigned C allowlist obj := ⟨htype, signer, hverify, hdid⟩
      rw [if_neg (not_not.mpr hdid), imp_iff_right hself]
      rcases floatOf_cases (field obj "last_seen") with ⟨hlarge, hfloat⟩ | ⟨hlarge, hfloat⟩
      · rw [hfloat]
        exact iff_of_false (by rintro ⟨_, h, _⟩; cases h) fun h => h.1 hlarge
      · rw [hfloat, and_iff_right hlarge]
        cases hseen : (field obj "last_seen").bind toFloat with
        | none => exact iff_of_true (hnone rfl) fun _ h => by cases h
        | some last_seen =>
            dsimp only
            by_cases hahead : isAhead now max_future_skew last_seen = true
            · rw [if_pos hahead]
              refine iff_of_true (hnone rfl) fun t ht hnot => ?_
              obtain rfl := Option.some.inj ht
              cases hahead.symm.trans hnot
            · rw [if_neg hahead]
              have hgoal : (∀ t, some last_seen = some t → isAhead now max_future_skew t = false →
                  EntriesReadable B (field obj "endpoints")) ↔
                    EntriesReadable B (field obj "endpoints") := by
                refine ⟨fun h => h last_seen rfl (Bool.not_eq_true _ ▸ hahead), fun h _ _ _ => h⟩
              rw [hgoal]
              constructor
              · rintro ⟨r, hr, -⟩
                split at hr
                · cases hr
                · next l hiter =>
                    split at hr
                    · cases hr
                    · next es hcollect => exact (entries_ok_iff.mp ⟨l, hiter, hcollect⟩).1
              · intro h
                obtain ⟨l, hiter, hcollect⟩ := entries_ok_iff.mpr ⟨h, rfl⟩
                rw [hiter]
                dsimp only
                rw [hcollect]
                refine ⟨_, rfl, fun rec hrec => ?_⟩
                rw [← Option.some.inj hrec]
  · next hother =>
      refine iff_of_true (hnone rfl) ?_
      rintro ⟨-, signer, hverify, -⟩
      exact absurd hverify (hother signer)

/-- What is read as a record anywhere can be read everywhere. -/
theorem readable_of_verified {now : Option F} {max_future_skew : F} {obj : Value F} {rec : PeerRecord F}
    (h : verify_record B C allowlist now max_future_skew obj = .ok (some rec)) :
    ¬ TooLarge (field obj "last_seen") ∧ EntriesReadable B (field obj "endpoints") ∧
      rec.signed = obj := by
  rw [verify_record] at h
  split at h
  · exact nomatch h
  split at h
  · split at h
    · exact nomatch h
    rcases floatOf_cases (field obj "last_seen") with ⟨hlarge, hfloat⟩ | ⟨hlarge, hfloat⟩
    · rw [hfloat] at h
      exact nomatch h
    · rw [hfloat] at h
      cases hseen : (field obj "last_seen").bind toFloat with
      | none =>
          rw [hseen] at h
          exact nomatch h
      | some last_seen =>
          rw [hseen] at h
          dsimp only at h
          split at h
          · exact nomatch h
          split at h
          · exact nomatch h
          · next l hiter =>
              split at h
              · exact nomatch h
              · next es hcollect =>
                  obtain rfl := Option.some.inj (Except.ok.inj h)
                  exact ⟨hlarge, (entries_ok_iff.mp ⟨l, hiter, hcollect⟩).1, rfl⟩
  · exact nomatch h

end

/-! ## A record that raises -/

namespace NoList

/-- A signed record whose endpoints are `true`. -/
def record : Value (Option Int) :=
  .obj [("did", .str "did:p"), ("endpoints", .bool true), ("last_seen", .int 1),
    ("sig", .str ""), ("signer", .str "did:p"), ("type", .str RECORD_TYPE)]

theorem selfSigned : SelfSigned .lenient (fun _ => true) record := by
  refine ⟨?_, "did:p", ?_, ?_⟩
  · simp [textField, field, record, Value.asObj, objGet, Value.asStr]
  · simp [verifyPayload, record, Value.asObj, objGet, Crypto.lenient]
  · simp [textField, field, record, Value.asObj, objGet, Value.asStr]

theorem endpoints : field record "endpoints" = some (.bool true) := by
  simp [field, record, Value.asObj, objGet]

theorem last_seen : field record "last_seen" = some (.int 1) := by
  simp [field, record, Value.asObj, objGet]

end NoList

section

variable {F : Type} [PyFloat F] {B : Builtins F} {C : Crypto} {allowlist : String → Bool}

omit [PyFloat F] in
/-- What is made of an endpoint whose parts are there. -/
theorem add_endpoint (es : EndpointSet) (kind host port : Value F) :
    (match B.int port with
      | none => none
      | some none => some es
      | some (some port) =>
          match Endpoint.make (B.str kind) (B.str host) port with
          | none => some es
          | some e => some (EndpointSet.add es e)) =
      (endpoint B kind host port).toOption.map (addIf es) := by
  rw [endpoint, intOf]
  cases B.int port with
  | none => rfl
  | some n =>
      cases n with
      | none => rfl
      | some n =>
          cases h : Endpoint.make (B.str kind) (B.str host) n with
          | none => simp [Except.map, Except.toOption, addIf, h]
          | some e => simp [Except.map, Except.toOption, addIf, h]

omit [PyFloat F] in
theorem addItem_eq (es : EndpointSet) (item : Value F) :
    addItem B es item = (endpointOf B item).toOption.map (addIf es) := by
  rw [addItem, endpointOf]
  cases field item "kind" with
  | none => rfl
  | some kind =>
      cases field item "host" with
      | none => rfl
      | some host =>
          cases field item "port" with
          | none => rfl
          | some port => exact add_endpoint es kind host port

omit [PyFloat F] in
/-- The text of a text is itself. -/
theorem addReported_eq (hstr : ∀ s, B.str (.str s) = s) (es : EndpointSet) (item : Value F) :
    addReported B es item = (reportedOf B (some SELF_REPORTABLE) item).toOption.map (addIf es) := by
  cases hobj : item.asObj with
  | none =>
      have hkind : field item "kind" = none := by rw [field, hobj, Option.bind_none]
      rw [addReported, hkind, reportedOf, hobj]
      rfl
  | some m =>
      rw [addReported, reportedOf, hobj, if_neg (by simp)]
      dsimp only
      split
      · next a hkind =>
          rw [hkind]
          rfl
      · next a hkind =>
          rw [hkind]
          rfl
      · next kind hkind =>
          have hallowed : isAllowed (F := F) (some SELF_REPORTABLE) (.str kind) =
            .ok (decide (kind ∈ SELF_REPORTABLE)) := rfl
          rw [hkind, Option.getD_some, hallowed]
          by_cases hin : kind ∈ SELF_REPORTABLE
          · rw [if_neg (not_not.mpr hin), decide_eq_true hin]
            dsimp only
            cases field item "host" with
            | none => rfl
            | some host =>
                cases field item "port" with
                | none => rfl
                | some port =>
                    have hadd := add_endpoint (B := B) es (.str kind) host port
                    rw [hstr] at hadd
                    exact hadd
          · rw [if_pos hin, decide_eq_false hin]
            rfl
      · next harr hobject hstring =>
          have hallowed : isAllowed (some SELF_REPORTABLE) ((field item "kind").getD .null) =
              .ok false := by
            cases hkind : field item "kind" with
            | none => rfl
            | some kind =>
                cases kind with
                | arr a => exact absurd hkind (harr a)
                | obj m => exact absurd hkind (hobject m)
                | str s => exact absurd hkind (hstring s)
                | _ => rfl
          rw [hallowed]
          rfl

omit [PyFloat F] in
/-- The loop, when what raises is made nothing of. -/
theorem toOption_collect {read : Value F → Except Raised (Option Endpoint)}
    {add : EndpointSet → Value F → Option EndpointSet}
    (h : ∀ es item, add es item = (read item).toOption.map (addIf es)) :
    ∀ (items : List (Value F)) (es : EndpointSet),
      (items.foldlM (fun es item => (read item).map (addIf es)) es).toOption = items.foldlM add es
  | [], es => rfl
  | item :: items, es => by
      rw [List.foldlM_cons, List.foldlM_cons, h]
      cases hread : read item with
      | error x => rfl
      | ok e => exact toOption_collect h items (addIf es e)

theorem toOption_iterate (v : Option (Value F)) : (iterate v).toOption = itemsOf v := by
  rw [iterate]
  cases itemsOf v with
  | none => rfl
  | some l => rfl

/-- The rendezvous drops a registration whose endpoints raise. -/
theorem toOption_endpoints_from_json (hstr : ∀ s, B.str (.str s) = s) (v : Option (Value F)) :
    (endpoints_from_json B (some SELF_REPORTABLE) v).toOption = Transport.endpoints_from_json B v := by
  rw [endpoints_from_json, Transport.endpoints_from_json, ← toOption_iterate]
  cases iterate v with
  | error x => rfl
  | ok l => exact toOption_collect (addReported_eq hstr) l []

theorem endpointsOf_eq (v : Option (Value F)) :
    endpointsOf B v = (itemsOf v).bind (fun items => items.foldlM (addItem B) []) := by
  cases v with
  | none => rfl
  | some v =>
      cases v with
      | bool b => cases b <;> rfl
      | int n =>
          by_cases hn : n = 0
          · subst hn
            rfl
          · simp [endpointsOf, itemsOf, hn]
      | float f =>
          rw [endpointsOf, itemsOf]
          split
          · rfl
          · rfl
      | _ => rfl

/-- The view passes over a record that raises. -/
theorem toOption_verify_record (now : Option F) (max_future_skew : F) (obj : Value F) :
    (verify_record B C allowlist now max_future_skew obj).toOption.join =
      Transport.verify_record B C allowlist now max_future_skew obj := by
  rw [verify_record, Transport.verify_record]
  by_cases htype : textField obj "type" ≠ some RECORD_TYPE
  · rw [if_pos htype, if_pos htype]
    rfl
  rw [if_neg htype, if_neg htype]
  rcases verifyPayload C allowlist obj with ⟨- | -, - | signer⟩
  · rfl
  · rfl
  · rfl
  · dsimp only
    by_cases hdid : textField obj "did" ≠ some signer
    · rw [if_pos hdid, if_pos hdid]
      rfl
    rw [if_neg hdid, if_neg hdid]
    have hloop : ∀ v : Option (Value F), endpointsOf B v =
        (iterate v).toOption.bind (fun l => (collect (endpointOf B) l).toOption) := fun v => by
      rw [endpointsOf_eq, toOption_iterate]
      exact congrArg _ (funext fun l => (toOption_collect addItem_eq l []).symm)
    rw [hloop]
    rcases floatOf_cases (field obj "last_seen") with ⟨⟨n, hn, hlarge⟩, hfloat⟩ | ⟨-, hfloat⟩
    · rw [hfloat, hn, Option.bind_some, toFloat, hlarge]
      rfl
    · rw [hfloat]
      cases (field obj "last_seen").bind toFloat with
      | none => rfl
      | some last_seen =>
          dsimp only
          by_cases hahead : isAhead now max_future_skew last_seen = true
          · rw [if_pos hahead]
            split
            · next seen endpoints hseen _ =>
                obtain rfl := Option.some.inj hseen
                exact (if_pos hahead).symm
            · rfl
          · rw [if_neg hahead]
            cases iterate (field obj "endpoints") with
            | error x => rfl
            | ok l =>
                dsimp only [Except.toOption, Option.bind_some]
                cases collect (endpointOf B) l with
                | error x => rfl
                | ok es => exact (if_neg hahead).symm

end

end Secdogie.Transport.Inbound
