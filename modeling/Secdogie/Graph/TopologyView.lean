/-
# `Secdogie.Graph.TopologyView` — the view as a union of operations

The abstract reading of the folded view: `IsUnion ops view` says that `view`
holds exactly what the operations in the set `ops` add.  It is kept by
`apply` (`isUnion_apply`), and a set of operations has one union at most
(`isUnion_unique`), which is why the order of arrival cannot show.

A state is filed under the digest of what identifies it, so all this is
relative to the digest keeping apart the texts it was applied to
(`KeysApart`).
-/
import Secdogie.Graph.Dag

namespace Secdogie.Graph

/-! ## Digests -/

theorem hexByte_inj {b b' : UInt8} (h : hexByte b = hexByte b') : b = b' := by
  have hb : b.toNat < 256 := b.toNat_lt
  have hb' : b'.toNat < 256 := b'.toNat_lt
  simp only [hexByte, List.cons.injEq, and_true] at h
  have hhi := congrArg hexVal h.1
  have hlo := congrArg hexVal h.2
  rw [hexVal_digitChar _ (by omega), hexVal_digitChar _ (by omega), Option.some.injEq] at hhi hlo
  exact UInt8.toNat_inj.mp (by omega)

theorem flatMap_hexByte_inj : ∀ {l l' : List UInt8}, l.flatMap hexByte = l'.flatMap hexByte → l = l'
  | [], [], _ => rfl
  | [], b :: l', h => by simp [hexByte] at h
  | b :: l, [], h => by simp [hexByte] at h
  | b :: l, b' :: l', h => by
      rw [List.flatMap_cons, List.flatMap_cons] at h
      obtain ⟨h1, h2⟩ := List.append_inj h rfl
      rw [hexByte_inj h1, flatMap_hexByte_inj h2]

/-- Equal content addresses are equal digests. -/
theorem sha256Hex_inj {P : Prims} {a b : ByteArray} (h : sha256Hex P a = sha256Hex P b) :
    P.sha256 a = P.sha256 b :=
  flatMap_hexByte_inj (String.ofList_injective h)

section

variable {F : Type} [FloatCodec F]

/-- Well-formed values without floats are told apart by their canonical
bytes. -/
theorem toBytes_inj {room : Nat} {v w : Value F} (hv : v.WF (fun _ => False) room)
    (hw : w.WF (fun _ => False) room) (h : toBytes v = toBytes w) : v = w := by
  have hstr : toStr v = toStr w := String.toByteArray_inj.mp h
  have hfloat : ∀ f : F, False → FloatReads f := fun _ h => h.elim
  have h1 : parseWith (toStr v) ⟨(toStr v).utf8ByteSize, room⟩ = .ok v :=
    parseWith_toStr hfloat hv le_rfl
  have h2 : parseWith (toStr w) ⟨(toStr v).utf8ByteSize, room⟩ = .ok w :=
    parseWith_toStr hfloat hw (hstr ▸ le_rfl)
  rw [hstr] at h1
  rw [hstr] at h2
  exact Except.ok.inj (h1.symm.trans h2)

omit [FloatCodec F] in
theorem stateKeyValue_eq (origin route : String) (query_keys : List String) :
    stateKeyValue F origin route query_keys = .obj [("origin", .str origin),
      ("query_keys", strArr query_keys), ("route", .str route), ("type", .str STATE_KEY_TYPE)] := by
  have h2 : "origin" < "type" := by decide
  have h3 : ¬ "route" < "origin" := by decide
  have h4 : "route" < "type" := by decide
  have h5 : ¬ "query_keys" < "origin" := by decide
  have h6 : "query_keys" < "route" := by decide
  simp [stateKeyValue, obj, objInsert, h2, h3, h4, h5, h6]

omit [FloatCodec F] in
theorem stateKeyValue_wf (origin route : String) (query_keys : List String) :
    (stateKeyValue F origin route query_keys).WF (fun _ => False) 2 := by
  refine wf_obj (fun e he => ?_)
  simp only [List.mem_cons, List.not_mem_nil, or_false] at he
  rcases he with rfl | rfl | rfl | rfl
  · exact wf_str _ _
  · exact wf_str _ _
  · exact wf_str _ _
  · exact wf_strArr _ _

end

/-- The digest keeps apart the states that `ops` declare. -/
def KeysApart (P : Prims) (F : Type) [FloatCodec F] (ops : Set Op) : Prop :=
  ∀ o r q o' r' q', Op.addState o r q ∈ ops → Op.addState o' r' q' ∈ ops →
    stateKey P F o r q = stateKey P F o' r' q' → o = o' ∧ r = r' ∧ q = q'

section

variable {P : Prims} {F : Type} [FloatCodec F]

theorem KeysApart.mono {ops ops' : Set Op} (h : KeysApart P F ops') (hsub : ops ⊆ ops') :
    KeysApart P F ops := fun o r q o' r' q' h1 h2 => h o r q o' r' q' (hsub h1) (hsub h2)

/-- A digest without collisions on the texts of the state keys keeps the
states apart. -/
theorem keysApart_of_injOn {ops : Set Op} (h : Set.InjOn P.sha256
    {b | ∃ o r q, Op.addState o r q ∈ ops ∧ b = toBytes (stateKeyValue F o r q)}) :
    KeysApart P F ops := by
  intro o r q o' r' q' h1 h2 heq
  have hbytes := h ⟨o, r, q, h1, rfl⟩ ⟨o', r', q', h2, rfl⟩ (sha256Hex_inj heq)
  have hval := toBytes_inj (stateKeyValue_wf o r q) (stateKeyValue_wf o' r' q') hbytes
  have hobj : [("origin", Value.str o), ("query_keys", strArr q), ("route", .str r),
      ("type", .str STATE_KEY_TYPE)] = ([("origin", .str o'), ("query_keys", strArr q'),
      ("route", .str r'), ("type", .str STATE_KEY_TYPE)] : List (String × Value F)) :=
    Value.obj.inj (by rwa [stateKeyValue_eq, stateKeyValue_eq] at hval)
  simp only [List.cons.injEq, Prod.mk.injEq, Value.str.injEq, strArr, Value.arr.injEq] at hobj
  refine ⟨hobj.1.2, hobj.2.2.1.2, ?_⟩
  exact (List.map_injective_iff.mpr (fun a b hab => Value.str.inj hab)) hobj.2.1.2

end

/-! ## Unions -/

namespace TopologyView

section

variable (P : Prims) (F : Type) [FloatCodec F]

/-- `view` holds exactly what the operations in `ops` add. -/
structure IsUnion (ops : Set Op) (view : TopologyView) : Prop where
  states : ∀ (k : String) (info : StateInfo), view.states[k]? = some info ↔
    Op.addState info.origin info.route info.query_keys ∈ ops ∧
      stateKey P F info.origin info.route info.query_keys = k
  references : ∀ r, r ∈ view.references ↔ Op.addReference r ∈ ops
  observations : ∀ (k : String) (o : Observation),
    (∃ seen, view.observations[k]? = some seen ∧ o ∈ seen) ↔
      Op.addObservation k o.content_hash o.byte_len ∈ ops
  observed : ∀ (k : String) seen, view.observations[k]? = some seen → seen.Nonempty

end

variable {P : Prims} {F : Type} [FloatCodec F]

theorem isUnion_empty : IsUnion P F ∅ {} where
  states := by simp
  references := by simp
  observations := by simp
  observed := by simp

theorem isUnion_applyOp {ops : Set Op} {view : TopologyView} (op : Op)
    (hkeys : KeysApart P F (insert op ops)) (h : IsUnion P F ops view) :
    IsUnion P F (insert op ops) (view.applyOp P F op) := by
  cases op with
  | addReference r =>
      refine ⟨?_, ?_, ?_, ?_⟩
      · simpa [applyOp] using h.states
      · simp [applyOp, h.references]
      · simpa [applyOp] using h.observations
      · simpa [applyOp] using h.observed
  | addState origin route query_keys =>
      have hrefs := h.references
      have hobs := h.observations
      have hseen := h.observed
      unfold applyOp
      dsimp only
      split_ifs with hmem
      -- the key is taken: by the same state, since keys are kept apart
      · refine ⟨fun k info => ?_, by simpa using hrefs, by simpa using hobs, hseen⟩
        rw [h.states, Set.mem_insert_iff]
        refine ⟨fun hk => ⟨.inr hk.1, hk.2⟩, fun ⟨hk, hkey⟩ => ⟨?_, hkey⟩⟩
        rcases hk with heq | hk
        · obtain ⟨info', hinfo'⟩ := StrMap.mem_iff_get.mp (by simpa using hmem)
          obtain ⟨hop', hkey'⟩ := (h.states _ _).mp hinfo'
          obtain ⟨ho, hr, hq⟩ := hkeys _ _ _ _ _ _ (.inr hop') (.inl rfl) hkey'
          rw [heq, ← ho, ← hr, ← hq]
          exact hop'
        · exact hk
      · refine ⟨fun k info => ?_, by simpa using hrefs, by simpa using hobs, hseen⟩
        rw [StrMap.get_insert, Set.mem_insert_iff]
        split_ifs with hk
        · constructor
          · intro heq
            obtain rfl := Option.some.inj heq
            exact ⟨.inl rfl, hk⟩
          · rintro ⟨hop, hkey⟩
            obtain ⟨ho, hr, hq⟩ := hkeys _ _ _ _ _ _ (.inl rfl) hop (hk.trans hkey.symm)
            rw [ho, hr, hq]
        · rw [h.states]
          refine ⟨fun hi => ⟨.inr hi.1, hi.2⟩, fun ⟨hi, hkey⟩ => ⟨?_, hkey⟩⟩
          rcases hi with heq | hi
          · injection heq with ho hr hq
            exact absurd (by rw [← hkey, ho, hr, hq]) hk
          · exact hi
  | addObservation state content_hash byte_len =>
      refine ⟨?_, ?_, fun k o => ?_, fun k seen => ?_⟩
      · simpa [applyOp] using h.states
      · simpa [applyOp] using h.references
      · have hobs := h.observations k o
        simp only [applyOp, StrMap.get_insert, Set.mem_insert_iff, Op.addObservation.injEq]
        split_ifs with hk
        · subst hk
          rw [← hobs]
          cases o
          cases hold : view.observations[state]? <;> simp [Observation.mk.injEq]
        · rw [hobs]
          simp [Ne.symm hk]
      · simp only [applyOp, StrMap.get_insert]
        split_ifs
        · rintro heq
          obtain rfl := Option.some.inj heq
          exact ⟨_, Finset.mem_insert_self _ _⟩
        · exact h.observed k seen

theorem isUnion_apply : ∀ (new : List Op) {ops : Set Op} {view : TopologyView},
    KeysApart P F (ops ∪ {op | op ∈ new}) → IsUnion P F ops view →
    IsUnion P F (ops ∪ {op | op ∈ new}) (view.apply P F new)
  | [], ops, view, _, h => by simpa [apply] using h
  | op :: new, ops, view, hkeys, h => by
      have hsplit : ops ∪ {x | x ∈ op :: new} = insert op ops ∪ {x | x ∈ new} := by
        ext x
        simp only [List.mem_cons, Set.mem_union, Set.mem_ofPred_eq, Set.mem_insert_iff]
        tauto
      rw [hsplit] at hkeys ⊢
      exact isUnion_apply new hkeys
        (isUnion_applyOp op (hkeys.mono Set.subset_union_left) h)

/-- A set of operations has one union. -/
theorem isUnion_unique {ops : Set Op} {view view' : TopologyView} (h : IsUnion P F ops view)
    (h' : IsUnion P F ops view') : view = view' := by
  have hstates : view.states = view'.states := StrMap.ext (fun k =>
    Option.ext (fun info => (h.states k info).trans (h'.states k info).symm))
  have hrefs : view.references = view'.references :=
    Finset.ext (fun r => (h.references r).trans (h'.references r).symm)
  have hobs : view.observations = view'.observations := by
    refine StrMap.ext (fun k => ?_)
    have hmem := fun o => (h.observations k o).trans (h'.observations k o).symm
    have hne := h.observed k
    have hne' := h'.observed k
    cases hk : view.observations[k]? with
    | none =>
        cases hk' : view'.observations[k]? with
        | none => rfl
        | some seen' =>
            obtain ⟨o, ho⟩ := hne' seen' hk'
            obtain ⟨seen, hseen, -⟩ := (hmem o).mpr ⟨seen', hk', ho⟩
            simp [hk] at hseen
    | some seen =>
        cases hk' : view'.observations[k]? with
        | none =>
            obtain ⟨o, ho⟩ := hne seen hk
            obtain ⟨seen', hseen', -⟩ := (hmem o).mp ⟨seen, hk, ho⟩
            simp [hk'] at hseen'
        | some seen' =>
            congr 1
            ext o
            simpa [hk, hk'] using hmem o
  cases view
  cases view'
  simp_all

end TopologyView

end Secdogie.Graph
