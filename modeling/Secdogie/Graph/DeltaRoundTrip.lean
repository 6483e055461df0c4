/-
# `Secdogie.Graph.DeltaRoundTrip` — a valid delta parses back from its payload

`Op.Valid` and `GraphDelta.Valid` are the schema as a predicate on the parsed
form.  `parsePayload_payloadValue` is the round trip, one lemma per operation
below it.  `parsePayload_inv` is the way back: whatever parses is the payload
of what it parses to, and that delta is valid.  A value is looked at through
its fields there, which determine it (`obj_of_fields`).
-/
import Secdogie.Graph.Delta

namespace Secdogie.Graph

/-! ## Valid deltas -/

/-- At most `max` entries, ascending without repetition, each of them fine. -/
structure SortedEntries (max : Nat) (each : String → Bool) (l : List String) : Prop where
  length_le : l.length ≤ max
  sorted : l.Pairwise (· < ·)
  each_ok : ∀ s ∈ l, each s = true

def Op.Valid : Op → Prop
  | .addState origin route query_keys =>
      Url.isOrigin origin = true ∧ Url.isRoute route = true ∧
        SortedEntries 64 Url.isQueryKey query_keys
  | .addReference r =>
      isHex64 r.src = true ∧ isHex64 r.dst = true ∧ SortedEntries MAX_FIELDS isFieldName r.fields ∧
        (r.via = .form ∨ (r.method = .get ∧ r.fields = []))
  | .addObservation state content_hash byte_len =>
      isHex64 state = true ∧ isHex64 content_hash = true ∧ byte_len ≤ MAX_SAFE_INT

structure GraphDelta.Valid (d : GraphDelta) : Prop where
  parents : SortedEntries MAX_PARENTS isHex64 d.parents
  lamport_pos : 1 ≤ d.lamport
  lamport_le : d.lamport ≤ MAX_SAFE_INT
  ops_ne : d.ops ≠ []
  ops_le : d.ops.length ≤ MAX_OPS
  ops : ∀ op ∈ d.ops, op.Valid

section

variable {F : Type}

@[simp] theorem Via.parse_asStr (via : Via) : Via.parse via.asStr = some via := by
  cases via <;> decide

@[simp] theorem Method.parse_asStr (method : Method) : Method.parse method.asStr = some method := by
  cases method <;> decide

/-! ## Digests -/

theorem byteLen_eq_length {l : List Char} (h : ∀ c ∈ l, c.utf8Size = 1) : byteLen l = l.length := by
  induction l with
  | nil => rfl
  | cons c l ih =>
      rw [byteLen_cons, h c (by simp), ih (fun d hd => h d (List.mem_cons_of_mem _ hd)),
        List.length_cons, Nat.add_comm]

/-- The hexadecimal form of 32 bytes is one. -/
theorem isHex64_hex {bytes : List UInt8} (h : bytes.length = 32) :
    isHex64 (String.ofList (bytes.flatMap hexByte)) = true := by
  have hdigit : ∀ n < 16, ((('0' ≤ Nat.digitChar n && Nat.digitChar n ≤ '9') ||
      ('a' ≤ Nat.digitChar n && Nat.digitChar n ≤ 'f')) = true) ∧ (Nat.digitChar n).utf8Size = 1 := by
    decide
  have hchar : ∀ c ∈ bytes.flatMap hexByte,
      ((('0' ≤ c && c ≤ '9') || ('a' ≤ c && c ≤ 'f')) = true) ∧ c.utf8Size = 1 := by
    intro c hc
    obtain ⟨b, -, hcb⟩ := List.mem_flatMap.mp hc
    have hb : b.toNat < 256 := b.toNat_lt
    simp only [hexByte, List.mem_cons, List.not_mem_nil, or_false] at hcb
    rcases hcb with rfl | rfl
    · exact hdigit _ (by omega)
    · exact hdigit _ (by omega)
  have hlen : byteLen (bytes.flatMap hexByte) = 64 := by
    rw [byteLen_eq_length (fun c hc => (hchar c hc).2), List.length_flatMap]
    simp [hexByte, h]
  unfold isHex64
  rw [utf8ByteSize_ofList, hlen, String.toList_ofList]
  exact Bool.and_eq_true_iff.mpr ⟨rfl, List.all_eq_true.mpr (fun c hc => (hchar c hc).1)⟩

/-! ## The values in the order of their keys -/

theorem payloadValue_eq (d : GraphDelta) : (payloadValue d : Value F) =
    .obj [("author", .str d.author), ("lamport", .int d.lamport), ("ops", .arr (d.ops.map opValue)),
      ("parents", strArr d.parents), ("type", .str DELTA_TYPE)] := by
  simp [payloadValue, obj, objInsert, ↓String.lt_iff_toList_lt, List.cons_lt_cons_iff]

theorem opValue_addState (origin route : String) (query_keys : List String) :
    (opValue (.addState origin route query_keys) : Value F) =
      .obj [("op", .str "add_state"), ("origin", .str origin), ("query_keys", strArr query_keys),
        ("route", .str route)] := by
  simp [opValue, obj, objInsert, ↓String.lt_iff_toList_lt, List.cons_lt_cons_iff]

theorem opValue_addReference (r : Reference) :
    (opValue (.addReference r) : Value F) =
      .obj [("fields", strArr r.fields), ("from", .str r.src), ("method", .str r.method.asStr),
        ("op", .str "add_reference"), ("to", .str r.dst), ("via", .str r.via.asStr)] := by
  simp [opValue, obj, objInsert, ↓String.lt_iff_toList_lt, List.cons_lt_cons_iff]

theorem opValue_addObservation (state content_hash : String) (byte_len : Nat) :
    (opValue (.addObservation state content_hash byte_len) : Value F) =
      .obj [("byte_len", .int byte_len), ("content_hash", .str content_hash),
        ("op", .str "add_observation"), ("state", .str state)] := by
  simp [opValue, obj, objInsert, ↓String.lt_iff_toList_lt, List.cons_lt_cons_iff]

/-! ## The fields -/

variable {P : Prims} {m : List (String × Value F)} {k what : String}

theorem getStr_of {s : String} (h : objGet m k = some (.str s)) : getStr m k what = .ok s := by
  simp only [getStr, h]

theorem asU64_natCast {n : Nat} (hn : n ≤ MAX_SAFE_INT) :
    (Value.int (F := F) n).asU64 = some n := by
  have hlt : (n : Int) < 18446744073709551616 := by
    have : MAX_SAFE_INT = 9007199254740991 := by norm_num [MAX_SAFE_INT]
    omega
  unfold Value.asU64
  dsimp only
  rw [if_pos, Int.toNat_natCast]
  refine ⟨Int.natCast_nonneg n, ?_⟩
  norm_num
  exact_mod_cast hlt

theorem getInt_of {n : Nat} (h : objGet m k = some (.int n)) (hn : n ≤ MAX_SAFE_INT) :
    getInt m k what = .ok n := by
  unfold getInt
  split
  · next i hi =>
    obtain rfl := Value.int.inj (Option.some.inj (h.symm.trans hi))
    rw [asU64_natCast hn]
    dsimp only
    rw [if_pos hn]
  · next hne => exact absurd h (hne n)

theorem sortedStrs_of {each : String → Bool} : ∀ {l : List String} {prev : Option String},
    (∀ q ∈ prev, ∀ s ∈ l, q < s) → l.Pairwise (· < ·) → (∀ s ∈ l, each s = true) →
    sortedStrs P k what each prev (l.map (Value.str (F := F))) = .ok l
  | [], _, _, _, _ => rfl
  | s :: l, prev, hprev, hsort, heach => by
      obtain ⟨hs, hsort⟩ := List.pairwise_cons.mp hsort
      have hrest : sortedStrs P k what each (some s) (l.map (Value.str (F := F))) = .ok l :=
        sortedStrs_of (fun q hq => Option.mem_some_iff.mp hq ▸ hs) hsort
          (fun t ht => heach t (List.mem_cons_of_mem _ ht))
      have hnle : prev.any (fun q => decide (s ≤ q)) = false := by
        cases prev with
        | none => rfl
        | some q => simpa using hprev q rfl s (by simp)
      simp only [List.map_cons, sortedStrs, Value.asStr, heach s (by simp), hnle, hrest]
      rfl

theorem getSortedStrs_of {each : String → Bool} {max : Nat} {l : List String}
    (h : objGet m k = some (strArr l)) (hl : SortedEntries max each l) :
    getSortedStrs P m k what max each = .ok l := by
  have hlen : ¬ max < (l.map (Value.str (F := F))).length := by
    simpa using hl.length_le
  simp only [getSortedStrs, h, strArr, Option.bind_some, Value.asArr, if_neg hlen]
  exact sortedStrs_of (by simp) hl.sorted hl.each_ok

/-! ## The operations and the payload -/

theorem parseOp_addState {origin route : String} {query_keys : List String}
    (h : (Op.addState origin route query_keys).Valid) :
    parseOp P (opValue (.addState origin route query_keys) : Value F)
      = .ok (.addState origin route query_keys) := by
  obtain ⟨horigin, hroute, hkeys⟩ := h
  rw [opValue_addState]
  have hget : ∀ (m : List (String × Value F)) what, objGet m "query_keys" = some (strArr query_keys) →
      getSortedStrs P m "query_keys" what 64 Url.isQueryKey = .ok query_keys :=
    fun _ _ h => getSortedStrs_of h hkeys
  simp [parseOp, parseAddState, Value.asObj, Value.asStr, objGet, fieldsExactly, getStr, bind,
    Except.bind, horigin, hroute, hget, pure, Except.pure]

theorem parseOp_addReference {r : Reference} (h : (Op.addReference r).Valid) :
    parseOp P (opValue (.addReference r) : Value F) = .ok (.addReference r) := by
  obtain ⟨hsrc, hdst, hfields, hform⟩ := h
  have hplain : ¬ (r.via ≠ .form ∧ (r.method ≠ .get ∨ r.fields ≠ [])) := by
    rintro ⟨hvia, hrest⟩
    obtain ⟨hmethod, hempty⟩ := hform.resolve_left hvia
    exact hrest.elim (fun h => h hmethod) (fun h => h hempty)
  rw [opValue_addReference]
  have hget : ∀ (m : List (String × Value F)) what, objGet m "fields" = some (strArr r.fields) →
      getSortedStrs P m "fields" what MAX_FIELDS isFieldName = .ok r.fields :=
    fun _ _ h => getSortedStrs_of h hfields
  simp only [ne_eq] at hplain
  simp [parseOp, parseAddReference, Value.asObj, Value.asStr, objGet, fieldsExactly, getStr, bind,
    Except.bind, hsrc, hdst, hget, hplain, pure, Except.pure]

theorem parseAddObservation_of {v : Value F} {state content_hash : String} {byte_len : Nat}
    (h : (Op.addObservation state content_hash byte_len).Valid)
    (hm : fieldsExactly P v ["op", "state", "content_hash", "byte_len"] "add_observation" = .ok m)
    (hs : objGet m "state" = some (.str state))
    (hc : objGet m "content_hash" = some (.str content_hash))
    (hb : objGet m "byte_len" = some (.int byte_len)) :
    parseAddObservation P v = .ok (.addObservation state content_hash byte_len) := by
  obtain ⟨hstate, hhash, hlen⟩ := h
  refine bind_ok.mpr ⟨m, hm, bind_ok.mpr ⟨state, getStr_of hs, bind_ok.mpr
    ⟨content_hash, getStr_of hc, ?_⟩⟩⟩
  rw [hstate, hhash, if_neg (by simp)]
  exact bind_ok.mpr ⟨byte_len, getInt_of hb hlen, rfl⟩

theorem parseOp_addObservation {state content_hash : String} {byte_len : Nat}
    (h : (Op.addObservation state content_hash byte_len).Valid) :
    parseOp P (opValue (.addObservation state content_hash byte_len) : Value F)
      = .ok (.addObservation state content_hash byte_len) := by
  rw [opValue_addObservation]
  calc parseOp P (Value.obj [("byte_len", .int byte_len), ("content_hash", .str content_hash),
        ("op", .str "add_observation"), ("state", .str state)] : Value F)
      = parseAddObservation P (Value.obj [("byte_len", .int byte_len),
          ("content_hash", .str content_hash), ("op", .str "add_observation"),
          ("state", .str state)] : Value F) := by
        simp [parseOp, Value.asObj, Value.asStr, objGet]
    _ = .ok (.addObservation state content_hash byte_len) :=
        parseAddObservation_of h (by simp [fieldsExactly, Value.asObj, objGet]; rfl)
          (by simp [objGet]) (by simp [objGet]) (by simp [objGet])

theorem parseOp_opValue {op : Op} (h : op.Valid) : parseOp P (opValue op : Value F) = .ok op := by
  cases op with
  | addState origin route query_keys => exact parseOp_addState h
  | addReference r => exact parseOp_addReference h
  | addObservation state content_hash byte_len => exact parseOp_addObservation h

theorem parseOps_opValue : ∀ {ops : List Op}, (∀ op ∈ ops, op.Valid) →
    parseOps P (ops.map (opValue (F := F))) = .ok ops
  | [], _ => rfl
  | op :: ops, h => by
      have hrest := parseOps_opValue (fun o ho => h o (List.mem_cons_of_mem _ ho))
      simp only [List.map_cons, parseOps, parseOp_opValue (h op (by simp)), hrest]
      rfl

theorem getLamport_of {n : Nat} (h : objGet m "lamport" = some (.int n)) (hn : n ≤ MAX_SAFE_INT) :
    getLamport m = .ok n := by
  unfold getLamport
  rw [h]
  exact getInt_of h hn

theorem parsePayload_of {v : Value F} {d : GraphDelta} (h : d.Valid)
    (hm : fieldsExactly P v ["type", "author", "parents", "lamport", "ops"] "delta" = .ok m)
    (ht : objGet m "type" = some (.str DELTA_TYPE)) (ha : objGet m "author" = some (.str d.author))
    (hp : objGet m "parents" = some (strArr d.parents))
    (hl : objGet m "lamport" = some (.int d.lamport))
    (ho : objGet m "ops" = some (.arr (d.ops.map opValue))) : parsePayload P v = .ok d := by
  refine bind_ok.mpr ⟨m, hm, bind_ok.mpr ⟨DELTA_TYPE, getStr_of ht, ?_⟩⟩
  rw [if_neg (by simp)]
  refine bind_ok.mpr ⟨d.author, getStr_of ha, bind_ok.mpr ⟨d.parents, ?_, bind_ok.mpr
    ⟨d.lamport, getLamport_of hl h.lamport_le, ?_⟩⟩⟩
  · rw [getSortedStrs_of hp h.parents]
    rfl
  have hlen : ¬ (d.ops.map (opValue (F := F)) = [] ∨
      MAX_OPS < (d.ops.map (opValue (F := F))).length) := by
    rw [List.map_eq_nil_iff, List.length_map, not_or, not_lt]
    exact ⟨h.ops_ne, h.ops_le⟩
  rw [if_neg (Nat.one_le_iff_ne_zero.mp h.lamport_pos), ho]
  change (if d.ops.map (opValue (F := F)) = [] ∨
    MAX_OPS < (d.ops.map (opValue (F := F))).length then _ else _) = _
  rw [if_neg hlen]
  exact bind_ok.mpr ⟨d.ops, parseOps_opValue h.ops, rfl⟩

/-- A valid delta is what its payload parses to. -/
theorem parsePayload_payloadValue {d : GraphDelta} (h : d.Valid) :
    parsePayload P (payloadValue d : Value F) = .ok d := by
  rw [payloadValue_eq]
  exact parsePayload_of h (by simp [fieldsExactly, Value.asObj, objGet]; rfl) (by simp [objGet])
    (by simp [objGet]) (by simp [objGet]) (by simp [objGet]) (by simp [objGet])

/-! ## What parses is a payload -/

theorem Via.asStr_of_parse {s : String} {via : Via} (h : Via.parse s = some via) :
    via.asStr = s := by
  unfold Via.parse at h
  split_ifs at h with ha harea hform hlink hredirect
  all_goals obtain rfl := Option.some.inj h
  · exact ha.symm
  · exact harea.symm
  · exact hform.symm
  · exact hlink.symm
  · exact hredirect.symm

theorem Method.asStr_of_parse {s : String} {method : Method} (h : Method.parse s = some method) :
    method.asStr = s := by
  unfold Method.parse at h
  split_ifs at h with hget hpost
  all_goals obtain rfl := Option.some.inj h
  · exact hget.symm
  · exact hpost.symm

theorem getInt_eq {n : Nat} (h : getInt m k what = .ok n) :
    objGet m k = some (.int n) ∧ n ≤ MAX_SAFE_INT := by
  unfold getInt at h
  split at h
  · next i hi =>
    split at h
    · next n' hn =>
      split_ifs at h with hmax
      · obtain rfl := Except.ok.inj h
        unfold Value.asU64 at hn
        dsimp only at hn
        split_ifs at hn with hrange
        obtain rfl := Option.some.inj hn
        exact ⟨by rw [hi, Int.toNat_of_nonneg hrange.1], hmax⟩
      · simp at h
    · simp at h
  · simp at h

theorem getLamport_eq {n : Nat} (h : getLamport m = .ok n) :
    objGet m "lamport" = some (.int n) ∧ n ≤ MAX_SAFE_INT := by
  unfold getLamport at h
  split at h
  · exact getInt_eq h
  · simp at h

theorem sortedStrs_entries {each : String → Bool} :
    ∀ {prev : Option String} {items : List (Value F)} {out : List String},
      sortedStrs P k what each prev items = .ok out →
      (∀ q ∈ prev, ∀ s ∈ out, q < s) ∧ out.Pairwise (· < ·) ∧ ∀ s ∈ out, each s = true
  | _, [], out, h => by
      obtain rfl := Except.ok.inj h
      simp
  | prev, v :: rest, out, h => by
      rw [sortedStrs] at h
      split at h
      · simp at h
      next s hs =>
      split_ifs at h with heach hprev
      · simp at h
      · simp at h
      obtain ⟨out', hrest, h⟩ := bind_ok.mp h
      obtain rfl := Except.ok.inj h
      obtain ⟨hlt, hsort, hall⟩ := sortedStrs_entries hrest
      have hs : ∀ t ∈ out', s < t := hlt s rfl
      refine ⟨fun q hq t ht => ?_, List.pairwise_cons.mpr ⟨hs, hsort⟩, fun t ht => ?_⟩
      · have hqs : q < s := by
          obtain rfl := Option.mem_def.mp hq
          simpa using hprev
        rcases List.mem_cons.mp ht with rfl | ht
        · exact hqs
        · exact hqs.trans (hs t ht)
      · rcases List.mem_cons.mp ht with rfl | ht
        · simpa using heach
        · exact hall t ht

theorem getSortedStrs_entries {each : String → Bool} {max : Nat} {out : List String}
    (h : getSortedStrs P m k what max each = .ok out) : SortedEntries max each out := by
  have hlen := (getSortedStrs_ok h).2
  unfold getSortedStrs at h
  split at h
  · simp at h
  split_ifs at h
  · simp at h
  obtain ⟨-, hsort, hall⟩ := sortedStrs_entries h
  exact ⟨hlen, hsort, hall⟩

/-- An object with exactly these fields is the one made of them. -/
theorem obj_of_fields {R : F → Prop} {room : Nat} {v : Value F} {names : List String}
    {pairs : List (String × Value F)} (hv : v.WF R room)
    (hm : fieldsExactly P v names what = .ok m) (hnames : pairs.map Prod.fst = names)
    (hget : ∀ e ∈ pairs, objGet m e.1 = some e.2) : obj pairs = v := by
  obtain ⟨rfl, hall⟩ := fieldsExactly_ok hm
  cases room with
  | zero => simp [Value.WF] at hv
  | succ room =>
  refine obj_eq hv.1 (fun e he => ?_) hget
  obtain ⟨e', he', heq⟩ := List.mem_map.mp (hnames ▸ hall e he : e.1 ∈ pairs.map Prod.fst)
  exact ⟨e'.2, heq ▸ he'⟩

variable {R : F → Prop} {room : Nat}

theorem parseAddState_inv {v : Value F} {op : Op} (hv : v.WF R room)
    (hop : v.asObj.bind (fun m => objGet m "op") = some (.str "add_state"))
    (h : parseAddState P v = .ok op) : op.Valid ∧ opValue op = v := by
  obtain ⟨m, hm, h⟩ := bind_ok.mp h
  have hop' : objGet m "op" = some (.str "add_state") := by
    rw [(fieldsExactly_ok hm).1] at hop
    exact hop
  obtain ⟨origin, horigin, h⟩ := bind_ok.mp h
  split_ifs at h with hbad
  · simp at h
  obtain ⟨route, hroute, h⟩ := bind_ok.mp h
  split_ifs at h with hbad'
  · simp at h
  obtain ⟨keys, hkeys, h⟩ := bind_ok.mp h
  obtain rfl := Except.ok.inj h
  refine ⟨⟨by simpa using hbad, by simpa using hbad', getSortedStrs_entries hkeys⟩,
    obj_of_fields hv hm rfl ?_⟩
  simp only [List.forall_mem_cons, List.not_mem_nil, false_imp_iff, implies_true, and_true]
  exact ⟨hop', getStr_ok horigin, getStr_ok hroute, (getSortedStrs_ok hkeys).1⟩

theorem parseAddReference_inv {v : Value F} {op : Op} (hv : v.WF R room)
    (hop : v.asObj.bind (fun m => objGet m "op") = some (.str "add_reference"))
    (h : parseAddReference P v = .ok op) : op.Valid ∧ opValue op = v := by
  obtain ⟨m, hm, h⟩ := bind_ok.mp h
  have hop' : objGet m "op" = some (.str "add_reference") := by
    rw [(fieldsExactly_ok hm).1] at hop
    exact hop
  obtain ⟨src, hsrc, h⟩ := bind_ok.mp h
  obtain ⟨dst, hdst, h⟩ := bind_ok.mp h
  split_ifs at h with hbad
  · simp at h
  obtain ⟨viaText, hvia, h⟩ := bind_ok.mp h
  split at h
  · simp at h
  next via hviaParse =>
  obtain ⟨methodText, hmethod, h⟩ := bind_ok.mp h
  split at h
  · simp at h
  next method hmethodParse =>
  obtain ⟨fields, hfields, h⟩ := bind_ok.mp h
  split_ifs at h with hplain
  · simp at h
  obtain rfl := Except.ok.inj h
  simp only [Bool.or_eq_true, Bool.not_eq_true', not_or, Bool.not_eq_false] at hbad
  refine ⟨⟨hbad.1, hbad.2, getSortedStrs_entries hfields, ?_⟩, obj_of_fields hv hm rfl ?_⟩
  · dsimp only
    tauto
  simp only [List.forall_mem_cons, List.not_mem_nil, false_imp_iff, implies_true, and_true]
  refine ⟨hop', getStr_ok hsrc, getStr_ok hdst, ?_, ?_, (getSortedStrs_ok hfields).1⟩
  · rw [Via.asStr_of_parse hviaParse]
    exact getStr_ok hvia
  · rw [Method.asStr_of_parse hmethodParse]
    exact getStr_ok hmethod

theorem parseAddObservation_inv {v : Value F} {op : Op} (hv : v.WF R room)
    (hop : v.asObj.bind (fun m => objGet m "op") = some (.str "add_observation"))
    (h : parseAddObservation P v = .ok op) : op.Valid ∧ opValue op = v := by
  obtain ⟨m, hm, h⟩ := bind_ok.mp h
  have hop' : objGet m "op" = some (.str "add_observation") := by
    rw [(fieldsExactly_ok hm).1] at hop
    exact hop
  obtain ⟨state, hstate, h⟩ := bind_ok.mp h
  obtain ⟨hash, hhash, h⟩ := bind_ok.mp h
  split_ifs at h with hbad
  · simp at h
  obtain ⟨len, hlen, h⟩ := bind_ok.mp h
  obtain rfl := Except.ok.inj h
  simp only [Bool.or_eq_true, Bool.not_eq_true', not_or, Bool.not_eq_false] at hbad
  refine ⟨⟨hbad.1, hbad.2, (getInt_eq hlen).2⟩, obj_of_fields hv hm rfl ?_⟩
  simp only [List.forall_mem_cons, List.not_mem_nil, false_imp_iff, implies_true, and_true]
  exact ⟨hop', getStr_ok hstate, getStr_ok hhash, (getInt_eq hlen).1⟩

theorem parseOp_inv {v : Value F} {op : Op} (hv : v.WF R room) (h : parseOp P v = .ok op) :
    op.Valid ∧ opValue op = v := by
  unfold parseOp at h
  split at h
  · simp at h
  next name hname =>
  obtain ⟨w, hw, hname⟩ := Option.bind_eq_some_iff.mp hname
  have hop : v.asObj.bind (fun m => objGet m "op") = some (.str name) := by
    rw [hw]
    cases w <;> simp_all [Value.asStr]
  split_ifs at h with hstate href hobs
  · exact parseAddState_inv hv (hstate ▸ hop) h
  · exact parseAddReference_inv hv (href ▸ hop) h
  · exact parseAddObservation_inv hv (hobs ▸ hop) h
  · simp at h

theorem parseOps_inv : ∀ {raw : List (Value F)} {ops : List Op}, (∀ v ∈ raw, v.WF R room) →
    parseOps P raw = .ok ops → (∀ op ∈ ops, op.Valid) ∧ ops.map opValue = raw
  | [], _, _, h => by
      obtain rfl := Except.ok.inj h
      simp
  | v :: raw, _, hraw, h => by
      obtain ⟨op, hop, h⟩ := bind_ok.mp h
      obtain ⟨ops, hops, h⟩ := bind_ok.mp h
      obtain rfl := Except.ok.inj h
      obtain ⟨hvalid, hv⟩ := parseOp_inv (hraw v (by simp)) hop
      obtain ⟨hvalids, hvs⟩ := parseOps_inv (fun w hw => hraw w (List.mem_cons_of_mem _ hw)) hops
      exact ⟨List.forall_mem_cons.mpr ⟨hvalid, hvalids⟩, by rw [List.map_cons, hv, hvs]⟩

/-- What parses to a delta is the payload of that delta, which is valid. -/
theorem parsePayload_inv {v : Value F} {d : GraphDelta} (hv : v.WF R room)
    (h : parsePayload P v = .ok d) : d.Valid ∧ payloadValue d = v := by
  obtain ⟨m, hm, h⟩ := bind_ok.mp h
  obtain ⟨type, htype, h⟩ := bind_ok.mp h
  split_ifs at h with htypeNe
  · simp at h
  obtain rfl := not_not.mp htypeNe
  obtain ⟨author, hauthor, h⟩ := bind_ok.mp h
  obtain ⟨parents, hparents, h⟩ := bind_ok.mp h
  have hparents := mapError_ok.mp hparents
  obtain ⟨lamport, hlamport, h⟩ := bind_ok.mp h
  split_ifs at h with hzero
  · simp at h
  split at h
  · simp at h
  next raw hraw =>
  split_ifs at h with hlen
  · simp at h
  obtain ⟨ops, hops, h⟩ := bind_ok.mp h
  obtain rfl := Except.ok.inj h
  -- the list of operations is a member of the payload, so its items are well-formed
  have hx : objGet m "ops" = some (.arr raw) := by
    obtain ⟨x, hx, hxa⟩ := Option.bind_eq_some_iff.mp hraw
    rw [hx]
    cases x <;> simp_all [Value.asArr]
  have hitems : ∃ room', ∀ w ∈ raw, w.WF R room' := by
    cases room with
    | zero =>
        rw [(fieldsExactly_ok hm).1] at hv
        simp [Value.WF] at hv
    | succ room =>
        rw [(fieldsExactly_ok hm).1] at hv
        have harr := wfMembers_iff.mp hv.2 _ (objGet_mem hx)
        cases room with
        | zero => simp [Value.WF] at harr
        | succ room => exact ⟨room, wfItems_iff.mp harr⟩
  obtain ⟨room', hitems⟩ := hitems
  obtain ⟨hvalid, hmap⟩ := parseOps_inv hitems hops
  have hcount : ops.length = raw.length := by rw [← hmap, List.length_map]
  refine ⟨⟨getSortedStrs_entries hparents, Nat.one_le_iff_ne_zero.mpr hzero,
    (getLamport_eq hlamport).2, ?_, ?_, hvalid⟩, obj_of_fields hv hm rfl ?_⟩
  · rintro rfl
    exact hlen (.inl hmap.symm)
  · rw [hcount]
    exact not_lt.mp (fun hgt => hlen (.inr hgt))
  simp only [List.forall_mem_cons, List.not_mem_nil, false_imp_iff, implies_true, and_true]
  exact ⟨getStr_ok htype, getStr_ok hauthor, (getSortedStrs_ok hparents).1,
    (getLamport_eq hlamport).1, hmap ▸ hx⟩

end

end Secdogie.Graph
