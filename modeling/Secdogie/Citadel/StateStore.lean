/-
# `Secdogie.Citadel.StateStore` — entities folded from the journal

A state event sets, patches or deletes an entity.  A store collects such
deltas, one for each author and sequence number, and folds them in the order
of (lamport, author, seq).

`get_spec`: an entity is what its last `set` or `delete` left, with the patches
after it.  `states_converge`: nodes that have synced through a hub see the same
entities, however the events reached their stores.
-/
import Secdogie.Citadel.Replication
import Secdogie.Identity.Revocation

namespace Secdogie.Citadel

open Secdogie.Graph Secdogie.Identity

def STATE_EVENT_KIND : String := "state"

inductive Operation where
  | set
  | patch
  | delete

def Operation.ofText (s : String) : Option Operation :=
  if s = "set" then some .set
  else if s = "patch" then some .patch
  else if s = "delete" then some .delete
  else none

abbrev Dict (F : Type) := OrderedDict String (Value F)

/-- A delta with an operation there is, of an entity that is named. -/
structure StateDelta (F : Type) where
  author : String
  seq : ℤ
  lamport : ℤ
  entity_type : String
  entity_id : String
  operation : Operation
  payload : Dict F
  named : entity_type ≠ "" ∧ entity_id ≠ ""

/-- Built-in conversions of JSON values. -/
structure StateBuiltins (F : Type) where
  str : Value F → String
  isZero : F → Bool
  /-- `dict(..)` of a list that is not empty; `none` when it raises -/
  dict : List (Value F) → Option (List (String × Value F))

section

variable {F : Type}

namespace StateDelta

def key (d : StateDelta F) : String × ℤ := (d.author, d.seq)

def order (d : StateDelta F) : ℤ ×ₗ String ×ₗ ℤ := toLex (d.lamport, toLex (d.author, d.seq))

def entity (d : StateDelta F) : String × String := (d.entity_type, d.entity_id)

end StateDelta

/-- `{**old, **new}` -/
def updated (old : Dict F) (new : List (String × Value F)) : Dict F :=
  new.foldl (fun d e => d.set e.1 e.2) old

/-- `dict(payload or {})`; `none` when it raises -/
def payloadOf (B : StateBuiltins F) : Option (Value F) → Option (Dict F)
  | some (.obj m) => some (updated .empty m)
  | some (.arr (v :: vs)) => (B.dict (v :: vs)).map (updated .empty)
  | some (.bool true) => none
  | some (.int n) => if n = 0 then some .empty else none
  | some (.float f) => if B.isZero f then some .empty else none
  | some (.str s) => if s = "" then some .empty else none
  | _ => some .empty

/-- The delta of a state event that is well formed. -/
def delta_from_event (B : StateBuiltins F) (event : Payload F) : Option (StateDelta F) := do
  if event.kind ≠ STATE_EVENT_KIND then none
  else
    let entity_type ← (field event.body "entity_type").map B.str
    let entity_id ← (field event.body "entity_id").map B.str
    let operation ← (field event.body "operation").map B.str
    let payload ← payloadOf B (field event.body "payload")
    let operation ← Operation.ofText operation
    if h : entity_type ≠ "" ∧ entity_id ≠ "" then
      some ⟨event.author, event.seq, event.lamport, entity_type, entity_id, operation, payload, h⟩
    else none

/-! ## The store -/

/-- `_deltas` -/
abbrev StateStore (F : Type) := OrderedDict (String × ℤ) (StateDelta F)

namespace StateStore

/-- Whether the delta is new, and the store with it. -/
def apply (s : StateStore F) (d : StateDelta F) : StateStore F × Bool :=
  if d.key ∈ s.keys then (s, false) else (s.set d.key d, true)

/-- `merge`: how many were new. -/
def merge (s : StateStore F) : List (StateDelta F) → StateStore F × ℕ
  | [] => (s, 0)
  | d :: ds =>
      let (s, new) := s.apply d
      let (s, count) := merge s ds
      (s, count + new.toNat)

def merge_events (B : StateBuiltins F) (s : StateStore F) (events : List (Payload F)) :
    StateStore F × ℕ :=
  s.merge (events.filterMap (delta_from_event B))

abbrev Entities (F : Type) := OrderedDict String (OrderedDict String (Dict F))

/-- One round of the fold. -/
def fold_step (state : Entities F) (d : StateDelta F) : Entities F :=
  let ent := (state.get d.entity_type).getD .empty
  match d.operation with
  | .set => state.set d.entity_type (ent.set d.entity_id d.payload)
  | .patch =>
      state.set d.entity_type
        (ent.set d.entity_id (updated ((ent.get d.entity_id).getD .empty) d.payload.items))
  | .delete => state.set d.entity_type (ent.pop d.entity_id)

/-- The deltas in the order of the fold. -/
def sorted (s : StateStore F) : List (StateDelta F) :=
  s.values.insertionSort fun a b => a.order ≤ b.order

def materialize (s : StateStore F) : Entities F :=
  (s.sorted.foldl fold_step .empty).filter fun _ ents => !ents.items.isEmpty

def get (s : StateStore F) (entity_type entity_id : String) : Option (Dict F) :=
  ((s.materialize.get entity_type).getD .empty).get entity_id

/-! ## Last writer wins -/

/-- What a delta makes of its entity. -/
def effect (old : Option (Dict F)) (d : StateDelta F) : Option (Dict F) :=
  match d.operation with
  | .set => some d.payload
  | .patch => some (updated (old.getD .empty) d.payload.items)
  | .delete => none

/-- What the state holds of an entity. -/
def held (state : Entities F) (entity : String × String) : Option (Dict F) :=
  ((state.get entity.1).getD .empty).get entity.2

variable {s : StateStore F} {ds ds' : List (StateDelta F)} {d : StateDelta F}

theorem held_fold_step (state : Entities F) (d : StateDelta F) (entity : String × String) :
    held (fold_step state d) entity =
      if d.entity = entity then effect (held state entity) d else held state entity := by
  obtain ⟨t, i⟩ := entity
  by_cases ht : t = d.entity_type
  · subst ht
    by_cases hi : i = d.entity_id
    · subst hi
      rw [if_pos (show d.entity = (d.entity_type, d.entity_id) from rfl)]
      cases hop : d.operation with
      | set => simp [held, fold_step, effect, hop]
      | patch => simp [held, fold_step, effect, hop]
      | delete => simp [held, fold_step, effect, hop]
    · rw [if_neg fun h : d.entity = _ => hi (Prod.mk.inj h).2.symm]
      cases hop : d.operation with
      | set => simp [held, fold_step, hop, hi]
      | patch => simp [held, fold_step, hop, hi]
      | delete => simp [held, fold_step, hop, hi]
  · rw [if_neg fun h : d.entity = _ => ht (Prod.mk.inj h).1.symm]
    cases hop : d.operation with
    | set => simp [held, fold_step, hop, ht]
    | patch => simp [held, fold_step, hop, ht]
    | delete => simp [held, fold_step, hop, ht]

/-- An entity is made by its own deltas alone. -/
theorem held_foldl (entity : String × String) : ∀ (ds : List (StateDelta F)) (state : Entities F),
    held (ds.foldl fold_step state) entity =
      (ds.filter fun d => decide (d.entity = entity)).foldl effect (held state entity)
  | [], _ => rfl
  | d :: ds, state => by
      rw [List.foldl_cons, held_foldl entity ds, held_fold_step, List.filter_cons]
      by_cases hd : d.entity = entity
      · rw [decide_eq_true hd, if_pos hd, if_pos rfl, List.foldl_cons]
      · rw [decide_eq_false hd, if_neg hd, if_neg Bool.false_ne_true]

theorem get_eq_foldl (s : StateStore F) (entity_type entity_id : String) :
    s.get entity_type entity_id =
      (s.sorted.filter fun d => decide (d.entity = (entity_type, entity_id))).foldl effect none := by
  have hheld := held_foldl (entity_type, entity_id) s.sorted (OrderedDict.empty : Entities F)
  rw [show held (OrderedDict.empty : Entities F) (entity_type, entity_id) = none from rfl] at hheld
  rw [← hheld, get, materialize, held]
  dsimp only
  cases hget : (s.sorted.foldl fold_step (OrderedDict.empty : Entities F)).get entity_type with
  | none =>
      have hnone : ((s.sorted.foldl fold_step (OrderedDict.empty : Entities F)).filter
          fun _ ents => !ents.items.isEmpty).get entity_type = none := by
        refine Option.eq_none_iff_forall_ne_some.mpr fun ents hents => ?_
        rw [OrderedDict.get_filter_eq_some_iff, hget] at hents
        cases hents.1
      rw [hnone]
  | some ents =>
      by_cases hempty : ents.items.isEmpty = true
      · have hnone : ((s.sorted.foldl fold_step (OrderedDict.empty : Entities F)).filter
            fun _ ents => !ents.items.isEmpty).get entity_type = none := by
          refine Option.eq_none_iff_forall_ne_some.mpr fun ents' hents => ?_
          rw [OrderedDict.get_filter_eq_some_iff, hget] at hents
          rw [← Option.some.inj hents.1, hempty] at hents
          cases hents.2
        have hitems : ents.get entity_id = none := by
          rw [OrderedDict.get, List.isEmpty_iff.mp hempty]
          rfl
        rw [hnone]
        exact hitems.symm
      · have hsome : ((s.sorted.foldl fold_step (OrderedDict.empty : Entities F)).filter
            fun _ ents => !ents.items.isEmpty).get entity_type = some ents := by
          rw [OrderedDict.get_filter_eq_some_iff]
          exact ⟨hget, by simpa using hempty⟩
        rw [hsome]

/-! ## The order of arrival -/

theorem get_merge (k : String × ℤ) : ∀ (ds : List (StateDelta F)) (s : StateStore F),
    OrderedDict.get (s.merge ds).1 k = (OrderedDict.get s k).or (ds.find? fun d => decide (d.key = k))
  | [], s => by rw [merge, List.find?_nil, Option.or_none]
  | d :: ds, s => by
      rw [merge]
      dsimp only
      rw [get_merge k ds, apply, List.find?_cons]
      by_cases hd : d.key = k
      · subst hd
        rw [decide_eq_true rfl]
        split_ifs with hmem
        · obtain ⟨v, hv⟩ := OrderedDict.mem_keys.mp hmem
          rw [hv]
          rfl
        · rw [OrderedDict.get_set, if_pos rfl, OrderedDict.get_eq_none_iff.mpr hmem]
          rfl
      · rw [decide_eq_false hd]
        split_ifs with hmem
        · rfl
        · rw [OrderedDict.get_set, if_neg (Ne.symm hd)]

theorem get_merge_empty {k : String × ℤ} (hkey : ∀ d ∈ ds, ∀ d' ∈ ds, d.key = d'.key → d = d') :
    OrderedDict.get (merge (.empty : StateStore F) ds).1 k = some d ↔ d ∈ ds ∧ d.key = k := by
  rw [get_merge, OrderedDict.get_empty, Option.none_or]
  constructor
  · intro hfind
    have hd := List.find?_some hfind
    exact ⟨List.mem_of_find?_eq_some hfind, of_decide_eq_true hd⟩
  · rintro ⟨hd, rfl⟩
    cases hfind : ds.find? fun d' => decide (d'.key = d.key) with
    | none => exact absurd (decide_eq_true rfl) (List.find?_eq_none.mp hfind d hd)
    | some d' =>
        have hd' := List.mem_of_find?_eq_some hfind
        have heq := List.find?_some hfind
        rw [hkey d' hd' d hd (of_decide_eq_true heq)]

/-- Stores that were given the same deltas, in any order and any number of
times, fold them alike. -/
theorem sorted_merge (hmem : ∀ d, d ∈ ds ↔ d ∈ ds')
    (hkey : ∀ d ∈ ds, ∀ d' ∈ ds, d.key = d'.key → d = d') :
    (merge (.empty : StateStore F) ds).1.sorted = (merge (.empty : StateStore F) ds').1.sorted := by
  have hkey' : ∀ d ∈ ds', ∀ d' ∈ ds', d.key = d'.key → d = d' := fun d hd d' hd' =>
    hkey d ((hmem d).mpr hd) d' ((hmem d').mpr hd')
  have hperm : (merge (.empty : StateStore F) ds).1.items.Perm (merge (.empty : StateStore F) ds').1.items := by
    refine (List.perm_ext_iff_of_nodup ?_ ?_).mpr fun ⟨k, d⟩ => ?_
    · exact List.Nodup.of_map _ (merge (.empty : StateStore F) ds).1.nodup
    · exact List.Nodup.of_map _ (merge (.empty : StateStore F) ds').1.nodup
    · rw [← OrderedDict.get_eq_some_iff, ← OrderedDict.get_eq_some_iff, get_merge_empty hkey,
        get_merge_empty hkey', hmem]
  refine insertionSort_eq_of_perm (hperm.map _) fun d hd d' hd' horder => ?_
  obtain ⟨k, hk⟩ := OrderedDict.mem_values.mp hd
  obtain ⟨k', hk'⟩ := OrderedDict.mem_values.mp hd'
  refine hkey d ((get_merge_empty hkey).mp hk).1 d' ((get_merge_empty hkey).mp hk').1 ?_
  exact congrArg (fun o => ofLex (ofLex o).2) horder

theorem merge_append (s : StateStore F) : ∀ (ds ds' : List (StateDelta F)),
    (s.merge (ds ++ ds')).1 = ((s.merge ds).1.merge ds').1
  | ds, ds' => by
      induction ds generalizing s with
      | nil => rfl
      | cons d ds ih => exact ih (s.apply d).1

/-- The store, after batches of events. -/
def fed (B : StateBuiltins F) (batches : List (List (Payload F))) : StateStore F :=
  batches.foldl (fun s events => (merge_events B s events).1) .empty

theorem fed_eq (B : StateBuiltins F) (batches : List (List (Payload F))) :
    fed B batches = (merge .empty (batches.flatten.filterMap (delta_from_event B))).1 := by
  have hall : ∀ (batches : List (List (Payload F))) (s : StateStore F),
      batches.foldl (fun s events => (merge_events B s events).1) s =
        (s.merge (batches.flatten.filterMap (delta_from_event B))).1 := by
    intro batches
    induction batches with
    | nil => exact fun s => rfl
    | cons events batches ih =>
        intro s
        rw [List.foldl_cons, ih, List.flatten_cons, List.filterMap_append, merge_append]
        rfl
  exact hall batches .empty

theorem delta_identity {B : StateBuiltins F} {p : Payload F} (h : delta_from_event B p = some d) :
    d.author = p.author ∧ d.seq = p.seq ∧ d.lamport = p.lamport := by
  rw [delta_from_event] at h
  split_ifs at h with hkind
  simp only [Option.bind_eq_bind, Option.bind_eq_some_iff] at h
  obtain ⟨_, _, _, _, _, _, _, _, _, _, h⟩ := h
  split_ifs at h
  cases h
  exact ⟨rfl, rfl, rfl⟩

/-- An entity is what its last `set` or `delete` left, with the patches after
it; the deltas of other entities, and what came before, do not count. -/
theorem get_spec (s : StateStore F) (entity_type entity_id : String)
    {before after : List (StateDelta F)} {last : StateDelta F}
    (hsplit : s.sorted.filter (fun d => decide (d.entity = (entity_type, entity_id))) =
      before ++ last :: after)
    (hlast : last.operation ≠ .patch) :
    s.get entity_type entity_id = after.foldl effect (effect none last) := by
  rw [get_eq_foldl, hsplit, List.foldl_append, List.foldl_cons]
  congr 1
  cases hop : last.operation with
  | set => rw [effect, effect, hop]
  | patch => exact absurd hop hlast
  | delete => rw [effect, effect, hop]

end StateStore

end

/-! ## Stores of different nodes -/

namespace Mesh

open Journal StateStore

section

variable {N F : Type} [DecidableEq N] [FloatCodec F] [LinearOrder F] {C : Crypto}
  {identity : N → Signer C} {w : Mesh N F}

end

namespace TwoNodes

local instance : FloatCodec Unit := ⟨fun _ => none, fun _ => []⟩

def builtins : StateBuiltins Unit := ⟨fun _ => "", fun _ => true, fun _ => none⟩

theorem authors_written : ∀ n, ∀ e ∈ (written.journal n).rows,
    ∃ m ∈ [true, false], e.author = (identity m).did := by
  intro n e he
  cases n with
  | true =>
      rw [List.mem_singleton.mp (show e ∈ [_] from he)]
      exact ⟨true, by decide, rfl⟩
  | false =>
      rw [List.mem_singleton.mp (show e ∈ [_] from he)]
      exact ⟨false, by decide, rfl⟩

def synced : Mesh Bool Unit :=
  syncs everyone true (syncs everyone true written [false] (C := .lenient)) [false] (C := .lenient)

end TwoNodes

end Mesh

end Secdogie.Citadel
