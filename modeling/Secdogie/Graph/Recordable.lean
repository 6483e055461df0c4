/-
# `Secdogie.Graph.Recordable` — candidates as operations of a delta

A candidate is recorded as a state and a reference to it.  Its origin is one that
is allowed, its query keys are those of a delta and its fields are sorted; what
the delta's validators can refuse is the length of the route, a route that is
not normalized, and a control character in the name of a field.

`recordable_iff`: the delta of a candidate is read back unless one of these is
so.
-/
import Secdogie.Graph.RouteCut

namespace Secdogie.Graph.Route

open Url (HttpsUrl Reject normalizePath segments LeadsEmpty)

/-! ## Normalized URLs -/

/-- The path of a URL is one that was normalized. -/
def Normal (u : HttpsUrl) : Prop := ∃ path, u.path = normalizePath path

theorem parseHttps_normal {s : List Char} {u : HttpsUrl} (h : Url.parseHttps s = .ok u) :
    Normal u := by
  simp only [Url.parseHttps] at h
  split at h
  · cases h
  split at h
  · cases h
  split at h
  · split at h
    · cases h
    split at h
    · cases h
    obtain ⟨⟨host, port⟩, -, h⟩ := bind_ok.mp h
    obtain rfl := Except.ok.inj h
    dsimp only
    split
    · exact ⟨['/'], show ['/'] = normalizePath ['/'] by decide +kernel⟩
    · exact ⟨_, rfl⟩
  · cases h

theorem resolve_normal {base u : HttpsUrl} {reference : List Char} (hbase : Normal base)
    (h : Url.resolve base reference = .ok (some u)) : Normal u := by
  simp only [Url.resolve] at h
  split at h
  · cases h
  split at h
  · cases h
  split at h
  · split at h
    · cases h
    · obtain ⟨v, hv, hu⟩ := map_ok.mp h
      obtain rfl := Option.some.inj hu
      exact parseHttps_normal hv
  split at h
  · obtain ⟨v, hv, hu⟩ := map_ok.mp h
    obtain rfl := Option.some.inj hu
    exact parseHttps_normal hv
  · obtain rfl := Option.some.inj (Except.ok.inj h)
    dsimp only [Normal]
    split_ifs
    · exact ⟨_, rfl⟩
    · exact hbase
    · exact ⟨_, rfl⟩

/-! ## Fields -/

/-- A field name as the scanner keeps it: a delta also asks that it holds no
control character. -/
def isKept (name : String) : Bool := name != "" && decide (name.utf8ByteSize ≤ MAX_FIELD_LEN)

theorem isFieldName_eq (name : String) :
    isFieldName name = (isKept name && !name.toList.any isControl) := rfl

theorem fieldName_kept {t : Tag} {name : String} (h : fieldName t = some name) :
    isKept name = true := by
  rw [fieldName] at h
  split at h
  · next n hn =>
      split_ifs at h with hkeep
      obtain rfl := Option.some.inj h
      have hne : (String.ofList n != "") = true := by
        rw [bne_iff_ne]
        intro hempty
        have hnil := congrArg String.toList hempty
        rw [String.toList_ofList] at hnil
        exact hkeep.1 hnil
      rw [isKept, hne, utf8ByteSize_ofList, Bool.true_and, decide_eq_true_eq]
      exact hkeep.2
  · cases h

theorem orderedInsert_entries {l : List String} {name : String}
    (h : SortedEntries MAX_FIELDS isKept l) (hroom : l.length < MAX_FIELDS) (hnew : name ∉ l)
    (hname : isKept name = true) :
    SortedEntries MAX_FIELDS isKept (l.orderedInsert (· ≤ ·) name) := by
  have hperm := List.perm_orderedInsert (· ≤ ·) name l
  refine ⟨?_, Url.pairwise_lt ?_ ?_, fun s hs => ?_⟩
  · rw [hperm.length_eq, List.length_cons]
    exact hroom
  · exact (h.sorted.imp le_of_lt).orderedInsert name l
  · refine (hperm.nodup_iff.mpr (List.nodup_cons.mpr ⟨hnew, ?_⟩)).isChain
    exact h.sorted.imp ne_of_lt
  · rcases List.mem_cons.mp (hperm.subset hs) with rfl | hs
    · exact hname
    · exact h.each_ok s hs

/-! ## Candidates -/

/-- A candidate as the scanner makes it. -/
structure CandidateState.Made (cfg : ScanConfig) (c : CandidateState) : Prop where
  origin : c.origin ∈ cfg.allowed_origins
  route : ∃ path, c.route.toList = normalizePath path
  query_keys : SortedEntries 64 Url.isQueryKey c.query_keys
  fields : SortedEntries MAX_FIELDS isKept c.fields
  plain : c.via = .form ∨ c.method = .get ∧ c.fields = []

/-- An open form as the scanner keeps it. -/
structure FormAcc.Made (f : FormAcc) : Prop where
  action : ∀ u, f.action = .ok (some u) → Normal u
  fields : SortedEntries MAX_FIELDS isKept f.fields

structure Scanner.Made (cfg : ScanConfig) (sc : Scanner) : Prop where
  base : Normal sc.base
  candidates : ∀ c ∈ sc.out.candidates, c.Made cfg
  form : ∀ f, sc.form = some f → f.Made

section

variable {cfg : ScanConfig} {doc : HttpsUrl}

theorem noFields : SortedEntries MAX_FIELDS isKept [] := ⟨Nat.zero_le _, .nil, nofun⟩

theorem emit_made {out : ScanResult} {target : Except Reject (Option HttpsUrl)} {via : Via}
    {method : Method} {fields : List String} {offset : Nat} (h : ∀ c ∈ out.candidates, c.Made cfg)
    (htarget : ∀ u, target = .ok (some u) → Normal u)
    (hfields : SortedEntries MAX_FIELDS isKept fields)
    (hplain : via = .form ∨ method = .get ∧ fields = []) :
    ∀ c ∈ (emit cfg out target via method fields offset).candidates, c.Made cfg := by
  rw [emit.eq_def]
  split
  · exact h
  · exact h
  · next u =>
      dsimp only
      split_ifs with hallowed hseen hmax
      · exact h
      · exact h
      · exact h
      · rw [List.forall_mem_append, List.forall_mem_singleton]
        obtain ⟨path, hpath⟩ := htarget u rfl
        refine ⟨h, ⟨?_, ⟨path, ?_⟩, Url.queryKeys_valid u, hfields, hplain⟩⟩
        · rw [allowed, decide_eq_false_iff_not, not_not] at hallowed
          exact hallowed
        · rw [String.toList_ofList]
          exact hpath

theorem closeForm_made {out : ScanResult} {f : FormAcc} (h : ∀ c ∈ out.candidates, c.Made cfg)
    (hf : f.Made) : ∀ c ∈ (closeForm cfg out f).candidates, c.Made cfg := by
  rw [closeForm]
  split_ifs with hpassword
  · exact h
  · exact emit_made h hf.action hf.fields (.inl rfl)

theorem addField_made {f : FormAcc} (hf : f.Made) (t : Tag) : (addField f t).Made := by
  have hinput : (if t.name = lit "input" ∧ ((t.text "type").any
      (fun ty => Url.eqIgnoreAsciiCase (trim ty) "password".toList)) = true
      then { f with has_password := true } else f).Made := by
    split_ifs
    · exact ⟨hf.action, hf.fields⟩
    · exact hf
  rw [addField]
  cases hname : fieldName t with
  | none => exact hinput
  | some name =>
      have hadd : ∀ g : FormAcc, g.Made → (if g.fields.length < MAX_FIELDS ∧ name ∉ g.fields then
          { g with fields := g.fields.orderedInsert (· ≤ ·) name }
        else g).Made := by
        intro g hg
        split_ifs with hroom
        · exact ⟨hg.action, orderedInsert_entries hg.fields hroom.1 hroom.2 (fieldName_kept hname)⟩
        · exact hg
      exact hadd _ hinput

theorem openForm_made {base : HttpsUrl} {t : Tag} {f : FormAcc} (hdoc : Normal doc)
    (hbase : Normal base) (h : openForm doc base t = some f) : f.Made := by
  rw [openForm] at h
  split at h
  · cases h
  · obtain rfl := Option.some.inj h
    refine ⟨fun u hu => ?_, noFields⟩
    dsimp only at hu
    split at hu
    · obtain rfl := Option.some.inj (Except.ok.inj hu)
      exact hdoc
    · obtain rfl := Option.some.inj (Except.ok.inj hu)
      exact hdoc
    · exact resolve_normal hbase hu

theorem visit_made {sc : Scanner} {t : Tag} (hdoc : Normal doc) (h : sc.Made cfg) :
    (visit cfg doc sc t).Made cfg := by
  have hlink : ∀ (href : List Char) u, Url.resolve sc.base href = .ok (some u) → Normal u :=
    fun href u hu => resolve_normal h.base hu
  rw [visit]
  split
  · cases t.text "href" with
    | none => exact h
    | some href =>
        dsimp only
        split
        · next u hu =>
            split_ifs
            · exact ⟨resolve_normal hdoc hu, h.candidates, h.form⟩
            · exact ⟨h.base, h.candidates, h.form⟩
        · exact ⟨h.base, h.candidates, h.form⟩
  split
  · cases t.text "href" with
    | none => exact h
    | some href =>
        exact ⟨h.base, emit_made h.candidates (hlink href) noFields (.inr ⟨rfl, rfl⟩), h.form⟩
  split
  · dsimp only
    split
    · cases t.text "href" with
      | none => exact h
      | some href =>
          exact ⟨h.base, emit_made h.candidates (hlink href) noFields (.inr ⟨rfl, rfl⟩), h.form⟩
    · exact h
  split
  · exact ⟨h.base, h.candidates, fun f hf => openForm_made hdoc h.base hf⟩
  split
  · cases hsc : sc.form with
    | none => exact h
    | some f => exact ⟨h.base, closeForm_made h.candidates (h.form f hsc), fun _ h => by cases h⟩
  split
  · refine ⟨h.base, h.candidates, fun f hf => ?_⟩
    obtain ⟨g, hg, rfl⟩ := Option.map_eq_some_iff.mp hf
    exact addField_made (h.form g hg) t
  · exact h

theorem visits_made {sc : Scanner} (hdoc : Normal doc) (ts : List Tag) (h : sc.Made cfg) :
    (ts.foldl (visit cfg doc) sc).Made cfg := by
  induction ts generalizing sc with
  | nil => exact h
  | cons t ts ih => exact ih (visit_made hdoc h)

theorem finish_made {sc : Scanner} (h : sc.Made cfg) :
    ∀ c ∈ (finish cfg sc).candidates, c.Made cfg := by
  rw [finish]
  cases hform : sc.form with
  | none => exact h.candidates
  | some f => exact closeForm_made h.candidates (h.form f hform)

end

theorem document_ok {cfg : ScanConfig} {doc : HttpsUrl} (h : document cfg = .ok doc) :
    Normal doc ∧ ∀ o ∈ cfg.allowed_origins, Url.isOrigin o = true := by
  rw [document] at h
  split at h
  · cases h
  · next hfind =>
      split at h
      · cases h
      split at h
      · cases h
      · next doc' hdoc =>
          split at h
          · obtain rfl := Except.ok.inj h
            refine ⟨parseHttps_normal hdoc, fun o ho => ?_⟩
            have horigin := List.find?_eq_none.mp hfind o ho
            rwa [Bool.not_eq_true', Bool.not_eq_false] at horigin
          · cases h

/-- The candidates of a scan are made like that, from allowed origins. -/
theorem scan_made {cfg : ScanConfig} {body : Bytes} {out : ScanResult}
    (h : scan cfg body = .ok (.ok out)) {c : CandidateState} (hc : c ∈ out.candidates) :
    c.Made cfg ∧ Url.isOrigin c.origin = true := by
  obtain ⟨doc, tags, hdoc, -, hcands⟩ := scan_tags h
  obtain ⟨hnormal, horigins⟩ := document_ok hdoc
  rw [hcands] at hc
  have hstart : (Scanner.start doc).Made cfg :=
    ⟨hnormal, fun c hc => absurd hc List.not_mem_nil, fun f hf => by cases hf⟩
  have hmade := finish_made (visits_made hnormal _ hstart) c hc
  exact ⟨hmade, horigins _ hmade.origin⟩

/-! ## Deltas -/

/-- The delta that records a candidate: its state, and the reference to it. -/
def CandidateState.delta (c : CandidateState) (author src dst : String) : GraphDelta where
  author := author
  parents := []
  lamport := 1
  ops := [.addState c.origin c.route c.query_keys,
    .addReference { src, dst, via := c.via, method := c.method, fields := c.fields }]

theorem isRoute_iff {route : String} {path : List Char} (h : route.toList = normalizePath path) :
    Url.isRoute route = true ↔
      route.utf8ByteSize ≤ Url.MAX_ROUTE ∧ ¬ LeadsEmpty 0 (segments path) := by
  rw [Url.isRoute, Bool.and_eq_true, Bool.and_eq_true, beq_iff_eq, beq_iff_eq, decide_eq_true_eq, h,
    ← Url.normalizePath_idem_iff, Url.normalizePath_eq path, List.head?_cons, eq_self_iff_true,
    true_and]

theorem fields_valid_iff {fields : List String} (h : SortedEntries MAX_FIELDS isKept fields) :
    SortedEntries MAX_FIELDS isFieldName fields ↔
      ∀ f ∈ fields, f.toList.any isControl = false := by
  constructor
  · intro hvalid f hf
    have hname := hvalid.each_ok f hf
    rw [isFieldName_eq, Bool.and_eq_true, Bool.not_eq_true'] at hname
    exact hname.2
  · intro hplain
    refine ⟨h.length_le, h.sorted, fun f hf => ?_⟩
    rw [isFieldName_eq, h.each_ok f hf, hplain f hf]
    rfl

/-- The delta of a candidate is valid if its route and its fields are. -/
theorem delta_valid_iff {cfg : ScanConfig} {c : CandidateState} {path : List Char}
    {author src dst : String} (hmade : c.Made cfg) (horigin : Url.isOrigin c.origin = true)
    (hpath : c.route.toList = normalizePath path) (hsrc : isHex64 src = true)
    (hdst : isHex64 dst = true) :
    (c.delta author src dst).Valid ↔ c.route.utf8ByteSize ≤ Url.MAX_ROUTE ∧
      ¬ LeadsEmpty 0 (segments path) ∧ ∀ f ∈ c.fields, f.toList.any isControl = false := by
  rw [← fields_valid_iff hmade.fields, ← and_assoc, ← isRoute_iff hpath]
  constructor
  · intro h
    obtain ⟨hstate, href, -⟩ := List.forall_mem_cons.mp h.ops |>.imp_right List.forall_mem_cons.mp
    exact ⟨hstate.2.1, href.2.2.1⟩
  · rintro ⟨hroute, hfields⟩
    refine ⟨⟨Nat.zero_le _, .nil, nofun⟩, le_rfl, ?_, List.cons_ne_nil _ _, ?_, ?_⟩
    · exact Nat.le_sub_of_add_le (by norm_num [CandidateState.delta])
    · exact (by decide : 2 ≤ 256)
    · intro op hop
      rcases List.mem_cons.mp hop with rfl | hop
      · exact ⟨horigin, hroute, hmade.query_keys⟩
      · obtain rfl := List.mem_singleton.mp hop
        exact ⟨hsrc, hdst, hfields, hmade.plain⟩

/-- A digest of zeros. -/
def zeroKey : String := String.ofList (List.replicate 64 '0')

theorem hex64_zero : isHex64 zeroKey = true := by decide +kernel

theorem valid_of_parsed {F : Type} [FloatCodec F] {P : Prims} {d : GraphDelta}
    (h : parsePayload P (payloadValue d : Value F) = .ok d) : d.Valid :=
  (parsePayload_inv (R := fun _ => True) (payloadValue_wf 0 d) h).1

/-- A candidate's delta is read back if and only if its route is short enough, no
empty segment leads the path it was normalized from, and no field name holds a
control character; and that of the path decides whether normalizing it is
idempotent. -/
theorem recordable_iff {F : Type} [FloatCodec F] (P : Prims) (cfg : ScanConfig) (body : Bytes)
    (out : ScanResult) (hscan : scan cfg body = .ok (.ok out)) :
    (∀ c ∈ out.candidates, ∃ path, c.route.toList = normalizePath path ∧
      ((∀ author src dst, isHex64 src = true → isHex64 dst = true →
          parsePayload P (payloadValue (c.delta author src dst) : Value F) =
            .ok (c.delta author src dst)) ↔
        c.route.utf8ByteSize ≤ Url.MAX_ROUTE ∧ ¬ LeadsEmpty 0 (segments path) ∧
          ∀ f ∈ c.fields, f.toList.any isControl = false)) ∧
    ∀ path, normalizePath (normalizePath path) = normalizePath path ↔
      ¬ LeadsEmpty 0 (segments path) := by
  refine ⟨fun c hc => ?_, Url.normalizePath_idem_iff⟩
  obtain ⟨hmade, horigin⟩ := scan_made hscan hc
  obtain ⟨path, hpath⟩ := hmade.route
  refine ⟨path, hpath, fun h => ?_, fun h author src dst hsrc hdst => ?_⟩
  · exact (delta_valid_iff hmade horigin hpath hex64_zero hex64_zero).mp
      (valid_of_parsed (h "" zeroKey zeroKey hex64_zero hex64_zero))
  · exact parsePayload_payloadValue (P := P)
      ((delta_valid_iff hmade horigin hpath hsrc hdst).mpr h)

namespace Sample

/-- A parent directory before an empty segment. -/
def slashPage : Bytes := lit "<a href=/a/..//b>"

def prims : Prims where
  sha256 _ := List.replicate 32 0
  sha256_length _ := rfl
  b64decode _ := none
  keyOk _ := false
  verifyStrict _ _ _ := false
  debugStr s := s

end Sample

open Route.Sample in
theorem slashes_refused : ∃ out c, scan config slashPage = .ok (.ok out) ∧ c ∈ out.candidates ∧
    parsePayload prims (payloadValue (c.delta "" zeroKey zeroKey) : Value Empty) ≠
      .ok (c.delta "" zeroKey zeroKey) ∧
    normalizePath (normalizePath "/a/..//b".toList) ≠ normalizePath "/a/..//b".toList :=
  ⟨_, _, rfl, List.mem_cons_self,
    fun h => absurd ((valid_of_parsed h).ops _ List.mem_cons_self).2.1 (by decide +kernel),
    by decide +kernel⟩

open Route.Sample in
theorem recordable_iff_link : ∃ out, scan config linkPage = .ok (.ok out) ∧
    ∀ c ∈ out.candidates, ∃ path, c.route.toList = normalizePath path ∧
      ((∀ author src dst, isHex64 src = true → isHex64 dst = true →
          parsePayload prims (payloadValue (c.delta author src dst) : Value Empty) =
            .ok (c.delta author src dst)) ↔
        c.route.utf8ByteSize ≤ Url.MAX_ROUTE ∧ ¬ LeadsEmpty 0 (segments path) ∧
          ∀ f ∈ c.fields, f.toList.any isControl = false) :=
  ⟨_, rfl, (recordable_iff prims config linkPage _ rfl).1⟩

end Secdogie.Graph.Route
