/-
# `Secdogie.Graph.Delta` — the strict reading of a topology delta

`parsePayload` is the schema of `secdogie/state-graph-delta/v1`: every field
is required, unknown ones are refused, types are exact, and a list that acts
as a set must be sorted and unique.  There are three operations and all of
them add.

The last section is what the schema says about the value itself: a payload
that parses holds no float (`parsePayload_ok`), nor does its envelope
(`noFloat_envelope`).
-/
import Secdogie.Graph.Url
import Secdogie.Graph.Envelope

namespace Secdogie.Graph

def DELTA_TYPE : String := "secdogie/state-graph-delta/v1"
def STATE_KEY_TYPE : String := "secdogie/state-key/v1"

def MAX_PARENTS : Nat := 16
def MAX_OPS : Nat := 256
def MAX_FIELDS : Nat := 64
def MAX_FIELD_LEN : Nat := 128
def MAX_SAFE_INT : Nat := 2 ^ 53 - 1

inductive Via where
  | a
  | area
  | form
  | link
  | redirect
deriving DecidableEq

def Via.asStr : Via → String
  | .a => "a"
  | .area => "area"
  | .form => "form"
  | .link => "link"
  | .redirect => "redirect"

def Via.parse (s : String) : Option Via :=
  if s = "a" then some .a
  else if s = "area" then some .area
  else if s = "form" then some .form
  else if s = "link" then some .link
  else if s = "redirect" then some .redirect
  else none

inductive Method where
  | get
  | post
deriving DecidableEq

def Method.asStr : Method → String
  | .get => "get"
  | .post => "post"

def Method.parse (s : String) : Option Method :=
  if s = "get" then some .get
  else if s = "post" then some .post
  else none

/-- A link or a form of one state that refers to another (`src`, `dst` are
the `from` and `to` of the source). -/
structure Reference where
  src : String
  dst : String
  via : Via
  method : Method
  fields : List String
deriving DecidableEq

inductive Op where
  | addState (origin route : String) (query_keys : List String)
  | addReference (r : Reference)
  | addObservation (state content_hash : String) (byte_len : Nat)
deriving DecidableEq

structure GraphDelta where
  author : String
  parents : List String
  lamport : Nat
  ops : List Op
deriving DecidableEq

structure DeltaError where
  text : String
deriving DecidableEq

def deltaErr {α : Type} (msg : String) : Except DeltaError α := .error ⟨msg⟩

def isHex64 (s : String) : Bool :=
  s.utf8ByteSize == 64
    && s.toList.all (fun c => ('0' ≤ c && c ≤ '9') || ('a' ≤ c && c ≤ 'f'))

/-- `format!("{b:02x}")` -/
def hexByte (b : UInt8) : List Char :=
  [Nat.digitChar (b.toNat / 16), Nat.digitChar (b.toNat % 16)]

def sha256Hex (P : Prims) (data : ByteArray) : String :=
  String.ofList ((P.sha256 data).flatMap hexByte)

section

variable {F : Type} [FloatCodec F] (P : Prims)

/-- The content address of a payload. -/
def cidOf (payload : Value F) : String := sha256Hex P (toBytes payload)

/-- What identifies a state: this route on this origin with these query
parameter names, independent of who saw it or when. -/
def stateKeyValue (F : Type) (origin route : String) (query_keys : List String) : Value F :=
  obj [("type", .str STATE_KEY_TYPE), ("origin", .str origin), ("route", .str route),
    ("query_keys", strArr query_keys)]

def stateKey (F : Type) [FloatCodec F] (origin route : String) (query_keys : List String) :
    String :=
  cidOf P (stateKeyValue F origin route query_keys)

def fieldsExactly (v : Value F) (names : List String) (what : String) :
    Except DeltaError (List (String × Value F)) :=
  match v.asObj with
  | none => deltaErr s!"{what} must be an object"
  | some m =>
      match (m.map Prod.fst).find? (fun k => !names.contains k) with
      | some k => deltaErr s!"{what}: unknown field {P.debugStr k}"
      | none =>
          match names.find? (fun k => (objGet m k).isNone) with
          | some k => deltaErr s!"{what}: missing field {P.debugStr k}"
          | none => .ok m

def getStr (m : List (String × Value F)) (k what : String) : Except DeltaError String :=
  match objGet m k with
  | some (.str s) => .ok s
  | _ => deltaErr s!"{what}.{k} must be a string"

def getInt (m : List (String × Value F)) (k what : String) : Except DeltaError Nat :=
  match objGet m k with
  | some (.int n) =>
      match (Value.int (F := F) n).asU64 with
      | some n => if n ≤ MAX_SAFE_INT then .ok n else deltaErr s!"{what}.{k} is out of range"
      | none => deltaErr s!"{what}.{k} is out of range"
  | _ => deltaErr s!"{what}.{k} must be an integer"

/-- The items of a sorted list of strings, `prev` being the one before. -/
def sortedStrs (k what : String) (each : String → Bool) :
    Option String → List (Value F) → Except DeltaError (List String)
  | _, [] => .ok []
  | prev, v :: rest =>
      match v.asStr with
      | none => deltaErr s!"{what}.{k} must contain strings"
      | some s =>
          if !each s then deltaErr s!"{what}.{k} contains an invalid entry {P.debugStr s}"
          else if prev.any (fun q => decide (s ≤ q)) then
            deltaErr s!"{what}.{k} must be sorted and unique"
          else do
            let out ← sortedStrs k what each (some s) rest
            pure (s :: out)

/-- A list of strings that must be sorted ascending and unique. -/
def getSortedStrs (m : List (String × Value F)) (k what : String) (max : Nat)
    (each : String → Bool) : Except DeltaError (List String) :=
  match (objGet m k).bind Value.asArr with
  | none => deltaErr s!"{what}.{k} must be a list"
  | some items =>
      if max < items.length then deltaErr s!"{what}.{k} has more than {max} items"
      else sortedStrs P k what each none items

/-- `char::is_control` -/
def isControl (c : Char) : Bool := c.toNat < 0x20 || (0x7f ≤ c.toNat && c.toNat < 0xa0)

def isFieldName (s : String) : Bool :=
  s != "" && decide (s.utf8ByteSize ≤ MAX_FIELD_LEN) && !s.toList.any isControl

def parseAddState (v : Value F) : Except DeltaError Op := do
  let m ← fieldsExactly P v ["op", "origin", "route", "query_keys"] "add_state"
  let origin ← getStr m "origin" "add_state"
  if !Url.isOrigin origin then
    deltaErr s!"add_state.origin must be an https origin, got {P.debugStr origin}"
  else
    let route ← getStr m "route" "add_state"
    if !Url.isRoute route then
      deltaErr s!"add_state.route must be a normalized path, got {P.debugStr route}"
    else
      let query_keys ← getSortedStrs P m "query_keys" "add_state" 64 Url.isQueryKey
      pure (.addState origin route query_keys)

def parseAddReference (v : Value F) : Except DeltaError Op := do
  let m ← fieldsExactly P v ["op", "from", "to", "via", "method", "fields"] "add_reference"
  let src ← getStr m "from" "add_reference"
  let dst ← getStr m "to" "add_reference"
  if !isHex64 src || !isHex64 dst then deltaErr "add_reference.from/to must be state keys"
  else
    match Via.parse (← getStr m "via" "add_reference") with
    | none => deltaErr "add_reference.via is not a known reference kind"
    | some via =>
        match Method.parse (← getStr m "method" "add_reference") with
        | none => deltaErr "add_reference.method must be \"get\" or \"post\""
        | some method =>
            let fields ← getSortedStrs P m "fields" "add_reference" MAX_FIELDS isFieldName
            if via ≠ .form ∧ (method ≠ .get ∨ fields ≠ []) then
              deltaErr "only a form reference carries a method other than get, or fields"
            else pure (.addReference ⟨src, dst, via, method, fields⟩)

def parseAddObservation (v : Value F) : Except DeltaError Op := do
  let m ← fieldsExactly P v ["op", "state", "content_hash", "byte_len"] "add_observation"
  let state ← getStr m "state" "add_observation"
  let content_hash ← getStr m "content_hash" "add_observation"
  if !isHex64 state || !isHex64 content_hash then
    deltaErr "add_observation.state/content_hash must be sha256 hex digests"
  else
    let byte_len ← getInt m "byte_len" "add_observation"
    pure (.addObservation state content_hash byte_len)

def parseOp (v : Value F) : Except DeltaError Op :=
  match (v.asObj.bind (fun m => objGet m "op")).bind Value.asStr with
  | none => deltaErr "op must be an object with an \"op\" name"
  | some name =>
      if name = "add_state" then parseAddState P v
      else if name = "add_reference" then parseAddReference P v
      else if name = "add_observation" then parseAddObservation P v
      else deltaErr
        s!"unknown op {P.debugStr name}: v1 deltas only add (no removal, no tombstones)"

/-- The operations of a delta, up to the first that does not parse. -/
def parseOps : List (Value F) → Except DeltaError (List Op)
  | [] => .ok []
  | v :: rest => do
      let op ← parseOp P v
      let ops ← parseOps rest
      pure (op :: ops)

def getLamport (m : List (String × Value F)) : Except DeltaError Nat :=
  match objGet m "lamport" with
  | some (.int _) => getInt m "lamport" "delta"
  | _ => deltaErr "lamport must be an integer"

/-- Parses and validates a delta payload (the envelope minus `signer` and
`sig`). -/
def parsePayload (v : Value F) : Except DeltaError GraphDelta := do
  let m ← fieldsExactly P v ["type", "author", "parents", "lamport", "ops"] "delta"
  let type ← getStr m "type" "delta"
  if type ≠ DELTA_TYPE then
    deltaErr s!"delta.type must be {P.debugStr DELTA_TYPE} (domain separation)"
  else
    let author ← getStr m "author" "delta"
    let parents ← (getSortedStrs P m "parents" "delta" MAX_PARENTS isHex64).mapError (fun e =>
      ⟨s!"parents must be sorted, unique sha256 hex digests ({e.text})"⟩)
    let lamport ← getLamport m
    if lamport = 0 then deltaErr "lamport must be at least 1"
    else
      match (objGet m "ops").bind Value.asArr with
      | none => deltaErr "delta.ops must be a list"
      | some raw_ops =>
          if raw_ops = [] ∨ MAX_OPS < raw_ops.length then
            deltaErr s!"delta.ops must hold 1..={MAX_OPS} ops"
          else
            let ops ← parseOps P raw_ops
            pure ⟨author, parents, lamport, ops⟩

end

section

variable {F : Type}

def opValue : Op → Value F
  | .addState origin route query_keys =>
      obj [("op", .str "add_state"), ("origin", .str origin), ("route", .str route),
        ("query_keys", strArr query_keys)]
  | .addReference r =>
      obj [("op", .str "add_reference"), ("from", .str r.src), ("to", .str r.dst),
        ("via", .str r.via.asStr), ("method", .str r.method.asStr), ("fields", strArr r.fields)]
  | .addObservation state content_hash byte_len =>
      obj [("op", .str "add_observation"), ("state", .str state),
        ("content_hash", .str content_hash), ("byte_len", .int byte_len)]

/-- The payload value of a delta (inverse of `parsePayload`). -/
def payloadValue (d : GraphDelta) : Value F :=
  obj [("type", .str DELTA_TYPE), ("author", .str d.author), ("parents", strArr d.parents),
    ("lamport", .int d.lamport), ("ops", .arr (d.ops.map opValue))]

theorem opValue_wf {R : F → Prop} (room : Nat) (op : Op) :
    (opValue op : Value F).WF R (room + 2) := by
  cases op <;> refine wf_obj (fun e he => ?_) <;>
    simp only [List.mem_cons, List.not_mem_nil, or_false] at he
  · rcases he with rfl | rfl | rfl | rfl <;> first | exact wf_str _ _ | exact wf_strArr _ _
  · rcases he with rfl | rfl | rfl | rfl | rfl | rfl <;>
      first | exact wf_str _ _ | exact wf_strArr _ _
  · rcases he with rfl | rfl | rfl | rfl <;> first | exact wf_str _ _ | exact wf_int _ _

theorem opValues_wf {R : F → Prop} (room : Nat) (ops : List Op) :
    (Value.arr (ops.map opValue) : Value F).WF R (room + 3) :=
  wfItems_iff.mpr (fun v hv => by
    obtain ⟨op, -, rfl⟩ := List.mem_map.mp hv
    exact opValue_wf room op)

theorem payloadValue_wf {R : F → Prop} (room : Nat) (d : GraphDelta) :
    (payloadValue d : Value F).WF R (room + 4) := by
  refine wf_obj (fun e he => ?_)
  simp only [List.mem_cons, List.not_mem_nil, or_false] at he
  rcases he with rfl | rfl | rfl | rfl | rfl
  · exact wf_str _ _
  · exact wf_str _ _
  · exact wf_strArr _ _
  · exact wf_int _ _
  · exact opValues_wf _ _

end

/-! ## A payload that parses holds no float -/

section

variable {F : Type} {P : Prims}

@[simp] theorem deltaErr_eq_ok {α : Type} {msg : String} {a : α} :
    deltaErr msg = .ok a ↔ False := by
  simp [deltaErr]

/-- No float anywhere, as far as the value is well-formed. -/
def Value.NoFloat (v : Value F) : Prop :=
  ∀ room, v.WF (fun _ => True) room → v.WF (fun _ => False) room

theorem noFloat_str (s : String) : (Value.str s : Value F).NoFloat := fun room _ => by
  cases room <;> trivial

theorem noFloat_int (n : Int) : (Value.int n : Value F).NoFloat := fun room _ => by
  cases room <;> trivial

theorem noFloat_arr {a : List (Value F)} (h : ∀ v ∈ a, v.NoFloat) : (Value.arr a).NoFloat
  | 0, hwf => by simp [Value.WF] at hwf
  | room + 1, hwf => wfItems_iff.mpr (fun v hv => h v hv room (wfItems_iff.mp hwf v hv))

/-- An object's members may be looked at through `objGet`: being well-formed
it is sorted. -/
theorem noFloat_obj {m : List (String × Value F)}
    (h : ∀ k v, objGet m k = some v → (k, v) ∈ m → v.NoFloat) : (Value.obj m).NoFloat
  | 0, hwf => by simp [Value.WF] at hwf
  | room + 1, ⟨hsort, hmem⟩ => ⟨hsort, wfMembers_iff.mpr (fun e he =>
      h e.1 e.2 (objGet_of_mem hsort he) he room (wfMembers_iff.mp hmem e he))⟩

theorem fieldsExactly_ok {v : Value F} {names : List String} {what : String}
    {m : List (String × Value F)} (h : fieldsExactly P v names what = .ok m) :
    v = .obj m ∧ ∀ e ∈ m, e.1 ∈ names := by
  unfold fieldsExactly at h
  split at h
  · simp at h
  next m' hm =>
  split at h
  · simp at h
  next hnone =>
  split at h
  · simp at h
  obtain rfl := Except.ok.inj h
  refine ⟨?_, fun e he => ?_⟩
  · cases v <;> simp_all [Value.asObj]
  · have := List.find?_eq_none.mp hnone e.1 (List.mem_map_of_mem he)
    simpa using this

theorem getStr_ok {m : List (String × Value F)} {k what s : String}
    (h : getStr m k what = .ok s) : objGet m k = some (.str s) := by
  unfold getStr at h
  split at h
  · next hs => rw [hs, Except.ok.inj h]
  · simp at h

theorem getInt_ok {m : List (String × Value F)} {k what : String} {n : Nat}
    (h : getInt m k what = .ok n) : ∃ i, objGet m k = some (.int i) := by
  unfold getInt at h
  split at h
  · next i hi => exact ⟨i, hi⟩
  · simp at h

theorem getLamport_ok {m : List (String × Value F)} {n : Nat} (h : getLamport m = .ok n) :
    ∃ i, objGet m "lamport" = some (.int i) := by
  unfold getLamport at h
  split at h
  · exact getInt_ok h
  · simp at h

theorem sortedStrs_ok {k what : String} {each : String → Bool} :
    ∀ {prev : Option String} {items : List (Value F)} {out : List String},
      sortedStrs P k what each prev items = .ok out → items = out.map .str
  | _, [], out, h => by
      obtain rfl := Except.ok.inj h
      rfl
  | prev, v :: rest, out, h => by
      rw [sortedStrs] at h
      split at h
      · simp at h
      next s hs =>
      split_ifs at h
      · simp at h
      · simp at h
      obtain ⟨out', hrest, h⟩ := bind_ok.mp h
      obtain rfl := Except.ok.inj h
      rw [sortedStrs_ok hrest, List.map_cons]
      cases v <;> simp_all [Value.asStr]

theorem getSortedStrs_ok {m : List (String × Value F)} {k what : String} {max : Nat}
    {each : String → Bool} {out : List String}
    (h : getSortedStrs P m k what max each = .ok out) :
    objGet m k = some (strArr out) ∧ out.length ≤ max := by
  unfold getSortedStrs at h
  split at h
  · simp at h
  next items hitems =>
  split_ifs at h with hlen
  · simp at h
  obtain ⟨v, hv, hv'⟩ := Option.bind_eq_some_iff.mp hitems
  have hout := sortedStrs_ok h
  refine ⟨?_, by rw [hout, List.length_map] at hlen; omega⟩
  rw [hv, strArr, ← hout]
  cases v <;> simp_all [Value.asArr]

theorem noFloat_strArr (out : List String) : (strArr out : Value F).NoFloat :=
  noFloat_arr (fun v hv => by
    obtain ⟨s, -, rfl⟩ := List.mem_map.mp hv
    exact noFloat_str s)

/-- An object whose members are all among `names`, and float-free there. -/
theorem noFloat_fields {v : Value F} {names : List String} {what : String}
    {m : List (String × Value F)} (h : fieldsExactly P v names what = .ok m)
    (hm : ∀ k ∈ names, ∀ w, objGet m k = some w → w.NoFloat) : v.NoFloat := by
  obtain ⟨rfl, hnames⟩ := fieldsExactly_ok h
  exact noFloat_obj (fun k w hget hmem => hm k (hnames _ hmem) w hget)

theorem noFloat_get_str {m : List (String × Value F)} {k s : String} {w : Value F}
    (hs : objGet m k = some (.str s)) (hw : objGet m k = some w) : w.NoFloat := by
  obtain rfl := Option.some.inj (hs.symm.trans hw)
  exact noFloat_str s

theorem noFloat_addState {v : Value F} {op : Op} {name : String}
    (hop : v.asObj.bind (fun m => objGet m "op") = some (.str name))
    (h : parseAddState P v = .ok op) : v.NoFloat := by
  obtain ⟨m, hm, h⟩ := bind_ok.mp h
  have hop' : objGet m "op" = some (.str name) := by
    rw [(fieldsExactly_ok hm).1] at hop
    exact hop
  obtain ⟨origin, horigin, h⟩ := bind_ok.mp h
  split_ifs at h
  · simp at h
  obtain ⟨route, hroute, h⟩ := bind_ok.mp h
  split_ifs at h
  · simp at h
  obtain ⟨keys, hkeys, -⟩ := bind_ok.mp h
  refine noFloat_fields hm (fun k hk w hw => ?_)
  simp only [List.mem_cons, List.not_mem_nil, or_false] at hk
  rcases hk with rfl | rfl | rfl | rfl
  · exact noFloat_get_str hop' hw
  · exact noFloat_get_str (getStr_ok horigin) hw
  · exact noFloat_get_str (getStr_ok hroute) hw
  · obtain rfl := Option.some.inj ((getSortedStrs_ok hkeys).1.symm.trans hw)
    exact noFloat_strArr _

theorem noFloat_addReference {v : Value F} {op : Op} {name : String}
    (hop : v.asObj.bind (fun m => objGet m "op") = some (.str name))
    (h : parseAddReference P v = .ok op) : v.NoFloat := by
  obtain ⟨m, hm, h⟩ := bind_ok.mp h
  have hop' : objGet m "op" = some (.str name) := by
    rw [(fieldsExactly_ok hm).1] at hop
    exact hop
  obtain ⟨src, hsrc, h⟩ := bind_ok.mp h
  obtain ⟨dst, hdst, h⟩ := bind_ok.mp h
  split_ifs at h
  · simp at h
  obtain ⟨via, hvia, h⟩ := bind_ok.mp h
  split at h
  · simp at h
  obtain ⟨method, hmethod, h⟩ := bind_ok.mp h
  split at h
  · simp at h
  obtain ⟨fields, hfields, -⟩ := bind_ok.mp h
  refine noFloat_fields hm (fun k hk w hw => ?_)
  simp only [List.mem_cons, List.not_mem_nil, or_false] at hk
  rcases hk with rfl | rfl | rfl | rfl | rfl | rfl
  · exact noFloat_get_str hop' hw
  · exact noFloat_get_str (getStr_ok hsrc) hw
  · exact noFloat_get_str (getStr_ok hdst) hw
  · exact noFloat_get_str (getStr_ok hvia) hw
  · exact noFloat_get_str (getStr_ok hmethod) hw
  · obtain rfl := Option.some.inj ((getSortedStrs_ok hfields).1.symm.trans hw)
    exact noFloat_strArr _

theorem noFloat_addObservation {v : Value F} {op : Op} {name : String}
    (hop : v.asObj.bind (fun m => objGet m "op") = some (.str name))
    (h : parseAddObservation P v = .ok op) : v.NoFloat := by
  obtain ⟨m, hm, h⟩ := bind_ok.mp h
  have hop' : objGet m "op" = some (.str name) := by
    rw [(fieldsExactly_ok hm).1] at hop
    exact hop
  obtain ⟨state, hstate, h⟩ := bind_ok.mp h
  obtain ⟨hash, hhash, h⟩ := bind_ok.mp h
  split_ifs at h
  · simp at h
  obtain ⟨len, hlen, -⟩ := bind_ok.mp h
  refine noFloat_fields hm (fun k hk w hw => ?_)
  simp only [List.mem_cons, List.not_mem_nil, or_false] at hk
  rcases hk with rfl | rfl | rfl | rfl
  · exact noFloat_get_str hop' hw
  · exact noFloat_get_str (getStr_ok hstate) hw
  · exact noFloat_get_str (getStr_ok hhash) hw
  · obtain ⟨i, hi⟩ := getInt_ok hlen
    obtain rfl := Option.some.inj (hi.symm.trans hw)
    exact noFloat_int i

theorem noFloat_parseOp {v : Value F} {op : Op} (h : parseOp P v = .ok op) : v.NoFloat := by
  unfold parseOp at h
  split at h
  · simp at h
  next name hname =>
  obtain ⟨w, hw, hname⟩ := Option.bind_eq_some_iff.mp hname
  have hop : v.asObj.bind (fun m => objGet m "op") = some (.str name) := by
    rw [hw]
    cases w <;> simp_all [Value.asStr]
  split_ifs at h
  · exact noFloat_addState hop h
  · exact noFloat_addReference hop h
  · exact noFloat_addObservation hop h
  · simp at h

theorem noFloat_parseOps : ∀ {raw : List (Value F)} {ops : List Op},
    parseOps P raw = .ok ops → ∀ v ∈ raw, v.NoFloat
  | [], _, _, _, hv => by simp at hv
  | w :: rest, _, h, v, hv => by
      obtain ⟨op, hop, h⟩ := bind_ok.mp h
      obtain ⟨ops, hops, -⟩ := bind_ok.mp h
      rcases List.mem_cons.mp hv with rfl | hv
      · exact noFloat_parseOp hop
      · exact noFloat_parseOps hops v hv

theorem mapError_ok {ε ε' α : Type} {x : Except ε α} {f : ε → ε'} {a : α} :
    x.mapError f = .ok a ↔ x = .ok a := by
  cases x <;> simp [Except.mapError]

/-- What the schema promises about a payload: its author and its parents
stand where they are read from, and it holds no float. -/
theorem parsePayload_ok {v : Value F} {d : GraphDelta} (h : parsePayload P v = .ok d) :
    (∃ m, v = .obj m ∧ objGet m "author" = some (.str d.author) ∧
      objGet m "parents" = some (strArr d.parents)) ∧
      d.parents.length ≤ MAX_PARENTS ∧ 0 < d.lamport ∧ v.NoFloat := by
  obtain ⟨m, hm, h⟩ := bind_ok.mp h
  obtain ⟨type, htype, h⟩ := bind_ok.mp h
  split_ifs at h
  · simp at h
  obtain ⟨author, hauthor, h⟩ := bind_ok.mp h
  obtain ⟨parents, hparents, h⟩ := bind_ok.mp h
  have hparents := mapError_ok.mp hparents
  obtain ⟨lamport, hlamport, h⟩ := bind_ok.mp h
  split_ifs at h with hzero
  · simp at h
  split at h
  · simp at h
  next raw hraw =>
  split_ifs at h
  · simp at h
  obtain ⟨ops, hops, h⟩ := bind_ok.mp h
  obtain rfl := Except.ok.inj h
  refine ⟨⟨m, (fieldsExactly_ok hm).1, getStr_ok hauthor, (getSortedStrs_ok hparents).1⟩,
    (getSortedStrs_ok hparents).2, Nat.pos_of_ne_zero hzero, ?_⟩
  refine noFloat_fields hm (fun k hk w hw => ?_)
  simp only [List.mem_cons, List.not_mem_nil, or_false] at hk
  rcases hk with rfl | rfl | rfl | rfl | rfl
  · exact noFloat_get_str (getStr_ok htype) hw
  · exact noFloat_get_str (getStr_ok hauthor) hw
  · obtain rfl := Option.some.inj ((getSortedStrs_ok hparents).1.symm.trans hw)
    exact noFloat_strArr _
  · obtain ⟨i, hi⟩ := getLamport_ok hlamport
    obtain rfl := Option.some.inj (hi.symm.trans hw)
    exact noFloat_int i
  · obtain ⟨x, hx, hxa⟩ := Option.bind_eq_some_iff.mp hraw
    obtain rfl := Option.some.inj (hx.symm.trans hw)
    cases x <;> simp only [Value.asArr, reduceCtorEq, Option.some.injEq] at hxa
    subst hxa
    exact noFloat_arr (noFloat_parseOps hops)

/-- An envelope whose payload parses holds no float either. -/
theorem noFloat_envelope [FloatCodec F] {m : List (String × Value F)} {ver : Verified F}
    {d : GraphDelta} (hver : verify P m = .ok ver) (h : parsePayload P ver.payload = .ok d) :
    (Value.obj m).NoFloat := by
  obtain ⟨hsigner, ⟨sig, hsig⟩, hpayload, -⟩ := verify_ok hver
  rintro (_ | room) hwf
  · simp [Value.WF] at hwf
  obtain ⟨hsort, hmem⟩ := hwf
  rw [wfMembers_iff] at hmem
  -- the payload is the rest of the envelope, so it is well-formed as well
  have hrest : ver.payload.WF (fun _ => False) (room + 1) := by
    refine (parsePayload_ok h).2.2.2 _ ?_
    rw [hpayload]
    exact ⟨hsort.filter _, wfMembers_iff.mpr (fun e he => hmem e (List.mem_of_mem_filter he))⟩
  rw [hpayload] at hrest
  refine ⟨hsort, wfMembers_iff.mpr (fun e he => ?_)⟩
  by_cases hk : e.1 = "signer"
  · exact noFloat_get_str hsigner (hk ▸ objGet_of_mem hsort he) room (hmem e he)
  by_cases hk' : e.1 = "sig"
  · exact noFloat_get_str hsig (hk' ▸ objGet_of_mem hsort he) room (hmem e he)
  exact wfMembers_iff.mp hrest.2 e (List.mem_filter.mpr ⟨he, by simp [hk, hk']⟩)

end

end Secdogie.Graph
