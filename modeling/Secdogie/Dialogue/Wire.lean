/-
# `Secdogie.Dialogue.Wire` — the codec that type annotations drive

A packet is a dataclass, and its annotations say how each field is written
and read.  An annotation is a Lean type here and `WireType` is what the codec
does with it: `to_wire` and `_value` of the source, one instance for each of
their branches.  The branch that refuses an unsupported annotation has no
counterpart, since a field has a type with an instance.

Beside the code an instance carries what it is for: `Fits` says which wire
values the annotation admits, `Finite` which values have a wire form that
reads back, and `normal` what becomes of a wire value that is read and
written again.  The last is not the value itself only because an integer may
stand for a float.

A dictionary is its list of members, sorted by key (`Value.WF`), so equality
of wire values is equality of dictionaries.
-/
import Secdogie.Graph.CanonSound
import Secdogie.Identity.Num

namespace Secdogie.Dialogue

open Secdogie.Graph Secdogie.Identity

/-- What reading an object raises. -/
inductive Raised where
  | protocolError (text : String)
  | overflowError
deriving DecidableEq

abbrev Reading := Except Raised

def refuse {α : Type} (text : String) : Reading α := .error (.protocolError text)

@[simp] theorem refuse_eq_ok {α : Type} {text : String} {a : α} :
    (refuse text : Reading α) = .ok a ↔ False := by
  simp [refuse]

/-- A type that an annotation names.  `value` takes the `repr` of strings and
the path to the value, for its error texts. -/
class WireType (F α : Type) where
  to_wire : α → Value F
  value : (String → String) → String → Value F → Reading α
  /-- what the annotation admits, an integer standing for a float -/
  Fits : Value F → Prop
  /-- no float in it is an infinity or NaN -/
  Finite : α → Prop
  /-- the value, each integer that stands for a float turned into one -/
  normal : Value F → Value F
  /-- whether the annotation has a float in it -/
  floats : Bool
  accepted : ∀ {repr : String → String} {path : String} {v : Value F} {a : α} {room : Nat},
    v.WF (fun _ => True) room → value repr path v = .ok a →
      Fits v ∧ Finite a ∧ to_wire a = normal v
  value_to_wire : ∀ (repr : String → String) (path : String) {a : α}, Finite a →
    value repr path (to_wire a) = .ok a
  plain : floats = false → (∀ a, Finite a) ∧
    ∀ (v : Value F) (room : Nat), v.WF (fun _ => True) room → Fits v → normal v = v

section

variable {F : Type}

/-! ## Scalars -/

def readBool (path : String) : Value F → Reading Bool
  | .bool b => .ok b
  | _ => refuse s!"{path}: expected a bool"

instance : WireType F Bool where
  to_wire b := .bool b
  value _ path := readBool path
  Fits v := ∃ b, v = .bool b
  Finite _ := True
  normal v := v
  floats := false
  accepted := by
    intro _ path v a _ _ h
    cases v with
    | bool b =>
        obtain rfl := Except.ok.inj h
        exact ⟨⟨b, rfl⟩, trivial, rfl⟩
    | _ => exact (refuse_eq_ok.mp h).elim
  value_to_wire _ _ := fun _ => rfl
  plain _ := ⟨fun _ => trivial, fun _ _ _ _ => rfl⟩

/-- `type(v) is int`, which a bool is not. -/
def readInt (path : String) : Value F → Reading Int
  | .int n => .ok n
  | _ => refuse s!"{path}: expected an int"

instance : WireType F Int where
  to_wire n := .int n
  value _ path := readInt path
  Fits v := ∃ n, v = .int n
  Finite _ := True
  normal v := v
  floats := false
  accepted := by
    intro _ path v a _ _ h
    cases v with
    | int n =>
        obtain rfl := Except.ok.inj h
        exact ⟨⟨n, rfl⟩, trivial, rfl⟩
    | _ => exact (refuse_eq_ok.mp h).elim
  value_to_wire _ _ := fun _ => rfl
  plain _ := ⟨fun _ => trivial, fun _ _ _ _ => rfl⟩

/-- A number.  `math.isfinite` of an integer converts it, and raises where
that overflows. -/
def readFloat [PyFloat F] (path : String) : Value F → Reading F
  | .int n =>
      match PyFloat.ofInt n with
      | some f =>
          if PyFloat.isFinite f then .ok f else refuse s!"{path}: expected a finite number"
      | none => .error .overflowError
  | .float f =>
      if PyFloat.isFinite f then .ok f else refuse s!"{path}: expected a finite number"
  | _ => refuse s!"{path}: expected a finite number"

/-- `float(v)` of an integer that stands for a float. -/
def floated [PyFloat F] : Value F → Value F
  | .int n => ((PyFloat.ofInt n).map Value.float).getD (.int n)
  | v => v

instance [PyFloat F] : WireType F F where
  to_wire f := .float f
  value _ path := readFloat path
  Fits v := (∃ n, v = .int n) ∨ ∃ f, v = .float f ∧ PyFloat.isFinite f = true
  Finite f := PyFloat.isFinite f = true
  normal := floated
  floats := true
  accepted := by
    intro _ path v a _ _ h
    cases v with
    | int n =>
        simp only [readFloat] at h
        cases hf : (PyFloat.ofInt n : Option F) with
        | none => simp [hf] at h
        | some f =>
            rw [hf] at h
            dsimp only at h
            split_ifs at h with hfin
            · obtain rfl := Except.ok.inj h
              exact ⟨.inl ⟨n, rfl⟩, hfin, by simp [floated, hf]⟩
            · exact (refuse_eq_ok.mp h).elim
    | float f =>
        simp only [readFloat] at h
        split_ifs at h with hfin
        · obtain rfl := Except.ok.inj h
          exact ⟨.inr ⟨f, rfl, hfin⟩, hfin, rfl⟩
        · exact (refuse_eq_ok.mp h).elim
    | _ => exact (refuse_eq_ok.mp h).elim
  value_to_wire _ _ := fun h => by rw [readFloat, if_pos h]
  plain h := by cases h

def readStr (path : String) : Value F → Reading String
  | .str s => .ok s
  | _ => refuse s!"{path}: expected a string"

instance : WireType F String where
  to_wire s := .str s
  value _ path := readStr path
  Fits v := ∃ s, v = .str s
  Finite _ := True
  normal v := v
  floats := false
  accepted := by
    intro _ path v a _ _ h
    cases v with
    | str s =>
        obtain rfl := Except.ok.inj h
        exact ⟨⟨s, rfl⟩, trivial, rfl⟩
    | _ => exact (refuse_eq_ok.mp h).elim
  value_to_wire _ _ := fun _ => rfl
  plain _ := ⟨fun _ => trivial, fun _ _ _ _ => rfl⟩

/-- A `dict`, which the codec leaves as it is. -/
structure PyDict (F : Type) where
  members : List (String × Value F)

def readDict (path : String) : Value F → Reading (PyDict F)
  | .obj m => .ok ⟨m⟩
  | _ => refuse s!"{path}: expected an object"

instance : WireType F (PyDict F) where
  to_wire d := .obj d.members
  value _ path := readDict path
  Fits v := ∃ m, v = .obj m
  Finite _ := True
  normal v := v
  floats := false
  accepted := by
    intro _ path v a _ _ h
    cases v with
    | obj m =>
        obtain rfl := Except.ok.inj h
        exact ⟨⟨m, rfl⟩, trivial, rfl⟩
    | _ => exact (refuse_eq_ok.mp h).elim
  value_to_wire _ _ := fun _ => rfl
  plain _ := ⟨fun _ => trivial, fun _ _ _ _ => rfl⟩

/-! ## Enumerations -/

/-- An `Enum` with a string for each member. -/
class StrEnum (α : Type) where
  members : List α
  val : α → String
  mem_members : ∀ a, a ∈ members
  val_inj : ∀ a b, val a = val b → a = b

/-- `tp(v)`: the member with this value. -/
def StrEnum.ofVal (α : Type) [StrEnum α] (s : String) : Option α :=
  (StrEnum.members (α := α)).find? (fun a => StrEnum.val a == s)

def readEnum (α : Type) [StrEnum α] (repr : String → String) (path : String) :
    Value F → Reading α
  | .str s =>
      match StrEnum.ofVal α s with
      | some a => .ok a
      | none => refuse s!"{path}: unknown value {repr s}"
  | _ => refuse s!"{path}: expected a string"

theorem ofVal_eq_some {α : Type} [StrEnum α] {s : String} {a : α} :
    StrEnum.ofVal α s = some a ↔ StrEnum.val a = s := by
  constructor
  · intro h
    simpa using List.find?_some h
  · rintro rfl
    cases h : StrEnum.ofVal α (StrEnum.val a) with
    | none => simpa using List.find?_eq_none.mp h a (StrEnum.mem_members a)
    | some b => rw [StrEnum.val_inj b a (by simpa using List.find?_some h)]

instance {α : Type} [StrEnum α] : WireType F α where
  to_wire a := .str (StrEnum.val a)
  value := readEnum α
  Fits v := ∃ a : α, v = .str (StrEnum.val a)
  Finite _ := True
  normal v := v
  floats := false
  accepted := by
    intro repr path v a _ _ h
    cases v with
    | str s =>
        simp only [readEnum] at h
        cases hs : StrEnum.ofVal α s with
        | none => simp [hs] at h
        | some b =>
            rw [hs] at h
            obtain rfl := Except.ok.inj h
            obtain rfl := ofVal_eq_some.mp hs
            exact ⟨⟨b, rfl⟩, trivial, rfl⟩
    | _ => exact (refuse_eq_ok.mp h).elim
  value_to_wire repr path := fun {a} _ => by
    have h : StrEnum.ofVal α (StrEnum.val a) = some a := ofVal_eq_some.mpr rfl
    simp [readEnum, h]
  plain _ := ⟨fun _ => trivial, fun _ _ _ _ => rfl⟩

/-! ## Tuples -/

/-- `tuple[α, ...]`, from item `i` on. -/
def readItems (α : Type) [WireType F α] (repr : String → String) (path : String) :
    Nat → List (Value F) → Reading (List α)
  | _, [] => .ok []
  | i, x :: rest => do
      let a ← WireType.value repr s!"{path}[{i}]" x
      let as ← readItems α repr path (i + 1) rest
      pure (a :: as)

def readList (α : Type) [WireType F α] (repr : String → String) (path : String) :
    Value F → Reading (List α)
  | .arr items => readItems α repr path 0 items
  | _ => refuse s!"{path}: expected a list"

def normalList (α : Type) [WireType F α] : Value F → Value F
  | .arr items => .arr (items.map (WireType.normal α))
  | v => v

theorem readItems_ok {α : Type} [WireType F α] {repr : String → String} {path : String}
    {room : Nat} : ∀ {i : Nat} {items : List (Value F)} {l : List α},
    (∀ v ∈ items, v.WF (fun _ => True) room) → readItems α repr path i items = .ok l →
    (∀ v ∈ items, WireType.Fits α v) ∧ (∀ a ∈ l, WireType.Finite F a) ∧
      l.map WireType.to_wire = items.map (WireType.normal α)
  | _, [], l, _, h => by
      obtain rfl := Except.ok.inj h
      simp
  | i, x :: rest, l, hwf, h => by
      obtain ⟨a, ha, h⟩ := bind_ok.mp h
      obtain ⟨as, has, h⟩ := bind_ok.mp h
      obtain rfl := Except.ok.inj h
      obtain ⟨hfit, hfin, hwire⟩ := WireType.accepted (hwf x (by simp)) ha
      obtain ⟨hfits, hfins, hwires⟩ :=
        readItems_ok (fun v hv => hwf v (List.mem_cons_of_mem _ hv)) has
      exact ⟨List.forall_mem_cons.mpr ⟨hfit, hfits⟩, List.forall_mem_cons.mpr ⟨hfin, hfins⟩,
        by rw [List.map_cons, List.map_cons, hwire, hwires]⟩

theorem readItems_to_wire {α : Type} [WireType F α] (repr : String → String) (path : String) :
    ∀ (i : Nat) {l : List α}, (∀ a ∈ l, WireType.Finite F a) →
      readItems α repr path i (l.map (WireType.to_wire (F := F))) = .ok l
  | _, [], _ => rfl
  | i, a :: l, h => by
      have ha := WireType.value_to_wire (F := F) repr s!"{path}[{i}]" (h a (by simp))
      have hl := readItems_to_wire repr path (i + 1)
        (fun b hb => h b (List.mem_cons_of_mem _ hb))
      rw [List.map_cons, readItems, ha, hl]
      rfl

instance {α : Type} [WireType F α] : WireType F (List α) where
  to_wire l := .arr (l.map WireType.to_wire)
  value := readList α
  Fits v := ∃ items, v = .arr items ∧ ∀ x ∈ items, WireType.Fits α x
  Finite l := ∀ a ∈ l, WireType.Finite F a
  normal := normalList α
  floats := WireType.floats F α
  accepted := by
    intro repr path v l room hwf h
    cases v with
    | arr items =>
        cases room with
        | zero => simp [Value.WF] at hwf
        | succ room =>
            obtain ⟨hfits, hfins, hwires⟩ := readItems_ok (wfItems_iff.mp hwf) h
            exact ⟨⟨items, rfl, hfits⟩, hfins, congrArg Value.arr hwires⟩
    | _ => exact (refuse_eq_ok.mp h).elim
  value_to_wire repr path := fun h => readItems_to_wire repr path 0 h
  plain hno := by
    obtain ⟨hfin, hnormal⟩ := WireType.plain (F := F) (α := α) hno
    refine ⟨fun l a _ => hfin a, ?_⟩
    rintro _ (_ | room) hwf ⟨items, rfl, hfits⟩
    · simp [Value.WF] at hwf
    · have hsame : ∀ x ∈ items, WireType.normal α x = x := fun x hx =>
        hnormal x room (wfItems_iff.mp hwf x hx) (hfits x hx)
      rw [normalList, List.map_congr_left hsame, List.map_id']

theorem readItems_length {α : Type} [WireType F α] {repr : String → String} {path : String} :
    ∀ {i : Nat} {items : List (Value F)} {l : List α}, readItems α repr path i items = .ok l →
      l.length = items.length
  | _, [], l, h => by
      obtain rfl := Except.ok.inj h
      rfl
  | i, x :: rest, l, h => by
      obtain ⟨a, -, h⟩ := bind_ok.mp h
      obtain ⟨as, has, h⟩ := bind_ok.mp h
      obtain rfl := Except.ok.inj h
      rw [List.length_cons, List.length_cons, readItems_length has]

/-- `tuple[α, …, α]`, of `n` items. -/
def readTuple (α : Type) [WireType F α] (n : Nat) (repr : String → String) (path : String) :
    Value F → Reading (List.Vector α n)
  | .arr items =>
      if hlen : items.length = n then
        match h : readItems α repr path 0 items with
        | .ok l => .ok ⟨l, (readItems_length h).trans hlen⟩
        | .error e => .error e
      else refuse s!"{path}: expected {n} items"
  | _ => refuse s!"{path}: expected a list"

theorem readTuple_ok {α : Type} [WireType F α] {n : Nat} {repr : String → String} {path : String}
    {items : List (Value F)} {l : List.Vector α n} :
    readTuple α n repr path (.arr items) = .ok l ↔
      items.length = n ∧ readItems α repr path 0 items = .ok l.toList := by
  unfold readTuple
  dsimp only
  split_ifs with hlen
  · split
    · next as has =>
      constructor
      · intro h
        obtain rfl := Except.ok.inj h
        exact ⟨hlen, has⟩
      · rintro ⟨-, h⟩
        have heq : as = l.toList := Except.ok.inj (has.symm.trans h)
        exact congrArg Except.ok (Subtype.ext heq)
    · next e he => simp [he]
  · simp [hlen]

instance {α : Type} [WireType F α] {n : Nat} : WireType F (List.Vector α n) where
  to_wire l := .arr (l.toList.map WireType.to_wire)
  value := readTuple α n
  Fits v := ∃ items, v = .arr items ∧ items.length = n ∧ ∀ x ∈ items, WireType.Fits α x
  Finite l := ∀ a ∈ l.toList, WireType.Finite F a
  normal := normalList α
  floats := WireType.floats F α
  accepted := by
    intro repr path v l room hwf h
    cases v with
    | arr items =>
        cases room with
        | zero => simp [Value.WF] at hwf
        | succ room =>
            obtain ⟨hlen, has⟩ := readTuple_ok.mp h
            obtain ⟨hfits, hfins, hwires⟩ := readItems_ok (wfItems_iff.mp hwf) has
            exact ⟨⟨items, rfl, hlen, hfits⟩, hfins, congrArg Value.arr hwires⟩
    | _ => exact (refuse_eq_ok.mp h).elim
  value_to_wire repr path := fun h =>
    readTuple_ok.mpr ⟨by simp, readItems_to_wire repr path 0 h⟩
  plain hno := by
    obtain ⟨hfin, hnormal⟩ := WireType.plain (F := F) (α := α) hno
    refine ⟨fun l a _ => hfin a, ?_⟩
    rintro _ (_ | room) hwf ⟨items, rfl, -, hfits⟩
    · simp [Value.WF] at hwf
    · have hsame : ∀ x ∈ items, WireType.normal α x = x := fun x hx =>
        hnormal x room (wfItems_iff.mp hwf x hx) (hfits x hx)
      rw [normalList, List.map_congr_left hsame, List.map_id']

/-! ## Dataclasses -/

/-- The fields of a dataclass with their annotations, in order; the type they
make is that of the keyword arguments. -/
inductive Fields (F : Type) : Type → Type 1 where
  | nil : Fields F Unit
  | cons {α β : Type} [WireType F α] (name : String) (rest : Fields F β) : Fields F (α × β)

namespace Fields

def names : {A : Type} → Fields F A → List String
  | _, .nil => []
  | _, @cons _ _ _ _ name rest => name :: rest.names

/-- `{f.name: to_wire(getattr(obj, f.name)) for f in fields(obj)}` -/
def to_wires : {A : Type} → Fields F A → A → List (String × Value F)
  | _, .nil, _ => []
  | _, @cons _ _ _ _ name rest, x => (name, WireType.to_wire x.1) :: rest.to_wires x.2

/-- Every field is explicit on the wire; no defaults are implied. -/
def kwargs (repr : String → String) (path : String) (m : List (String × Value F)) :
    {A : Type} → Fields F A → Reading A
  | _, .nil => .ok ()
  | _, @cons _ _ _ _ name rest =>
      match objGet m name with
      | none => refuse s!"{path}: missing field {repr name}"
      | some v => do
          let a ← WireType.value repr s!"{path}.{name}" v
          let x ← rest.kwargs repr path m
          pure (a, x)

/-- Every field is there and fits its annotation. -/
def FitIn (m : List (String × Value F)) : {A : Type} → Fields F A → Prop
  | _, .nil => True
  | _, @cons _ α _ _ name rest =>
      (∃ v, objGet m name = some v ∧ WireType.Fits α v) ∧ rest.FitIn m

def Finite : {A : Type} → Fields F A → A → Prop
  | _, .nil, _ => True
  | _, @cons _ _ _ _ _ rest, x => WireType.Finite F x.1 ∧ rest.Finite x.2

/-- What becomes of the value of the field `k`. -/
def normalAt (k : String) (v : Value F) : {A : Type} → Fields F A → Value F
  | _, .nil => v
  | _, @cons _ α _ _ name rest => if k = name then WireType.normal α v else rest.normalAt k v

def floats : {A : Type} → Fields F A → Bool
  | _, .nil => false
  | _, @cons _ α _ _ _ rest => WireType.floats F α || rest.floats

theorem keys_to_wires : ∀ {A : Type} (fs : Fields F A) (x : A),
    (fs.to_wires x).map Prod.fst = fs.names
  | _, .nil, _ => rfl
  | _, @cons _ _ _ _ _ rest, x => congrArg (_ :: ·) (keys_to_wires rest x.2)

/-- Arguments are read back from members that hold what they are written as. -/
theorem kwargs_to_wires (repr : String → String) (path : String) {m : List (String × Value F)} :
    ∀ {A : Type} (fs : Fields F A) {x : A}, fs.Finite x →
      (∀ e ∈ fs.to_wires x, objGet m e.1 = some e.2) → fs.kwargs repr path m = .ok x
  | _, .nil, _, _, _ => rfl
  | _, @cons _ _ _ _ name rest, x, hfin, hget => by
      have hhead : objGet m name = some (WireType.to_wire x.1) := hget _ List.mem_cons_self
      have ha := WireType.value_to_wire repr s!"{path}.{name}" hfin.1
      have hx := kwargs_to_wires repr path rest hfin.2
        (fun e he => hget e (List.mem_cons_of_mem _ he))
      rw [kwargs, hhead]
      dsimp only
      rw [ha, hx]
      rfl

/-- What the arguments that are read say about the members. -/
theorem kwargs_ok {repr : String → String} {path : String} {m : List (String × Value F)}
    {room : Nat} (hwf : ∀ k v, objGet m k = some v → v.WF (fun _ => True) room) :
    ∀ {A : Type} (fs : Fields F A) {x : A}, fs.names.Nodup → fs.kwargs repr path m = .ok x →
      fs.FitIn m ∧ fs.Finite x ∧
        ∀ e ∈ fs.to_wires x, (objGet m e.1).map (fun v => fs.normalAt e.1 v) = some e.2
  | _, .nil, _, _, _ => ⟨trivial, trivial, nofun⟩
  | _, @cons _ α _ _ name rest, x, hnd, h => by
      obtain ⟨hname, hnd⟩ := List.nodup_cons.mp hnd
      rw [kwargs] at h
      split at h
      · exact (refuse_eq_ok.mp h).elim
      next v hv =>
      obtain ⟨a, ha, h⟩ := bind_ok.mp h
      obtain ⟨y, hy, h⟩ := bind_ok.mp h
      obtain rfl := Except.ok.inj h
      obtain ⟨hfit, hfin, hwire⟩ := WireType.accepted (hwf name v hv) ha
      obtain ⟨hfits, hfins, hwires⟩ := kwargs_ok hwf rest hnd hy
      refine ⟨⟨⟨v, hv, hfit⟩, hfits⟩, ⟨hfin, hfins⟩, fun e he => ?_⟩
      rcases List.mem_cons.mp he with rfl | he
      · simp [hv, normalAt, hwire]
      · -- a later field has another name
        have hne : e.1 ≠ name := by
          rintro heq
          refine hname (heq ▸ ?_)
          rw [← keys_to_wires rest y]
          exact List.mem_map_of_mem he
        simpa [normalAt, hne] using hwires e he

theorem normalAt_plain {m : List (String × Value F)} {room : Nat} : ∀ {A : Type} (fs : Fields F A),
    fs.floats = false → fs.FitIn m → ∀ (k : String) (v : Value F), objGet m k = some v →
      v.WF (fun _ => True) room → fs.normalAt k v = v
  | _, .nil, _, _, _, _, _, _ => rfl
  | _, @cons _ α _ _ name rest, hno, hin, k, v, hv, hwf => by
      simp only [floats, Bool.or_eq_false_iff] at hno
      rw [FitIn] at hin
      obtain ⟨⟨w, hw, hfit⟩, hfits⟩ := hin
      rw [normalAt]
      split_ifs with hk
      · subst hk
        obtain rfl := Option.some.inj (hw.symm.trans hv)
        exact (WireType.plain hno.1).2 _ room hwf hfit
      · exact normalAt_plain rest hno.2 hfits k v hv hwf

theorem finite_plain : ∀ {A : Type} (fs : Fields F A), fs.floats = false → ∀ x, fs.Finite x
  | _, .nil, _, _ => trivial
  | _, @cons _ _ _ _ _ rest, hno, x => by
      simp only [floats, Bool.or_eq_false_iff] at hno
      exact ⟨(WireType.plain hno.1).1 x.1, finite_plain rest hno.2 x.2⟩

end Fields

/-- What `__post_init__` checks: the text it raises, if it does. -/
class PostInit (α : Type) where
  post_init : α → Option String

/-- An object of a dataclass: it has passed `__post_init__`. -/
structure Made (α : Type) [PostInit α] where
  obj : α
  post_init : PostInit.post_init obj = none

/-- A dataclass: its fields in order, each with its name and annotation. -/
class Dataclass (F α : Type) where
  Args : Type
  signature : Fields F Args
  args : α → Args
  make : Args → α
  make_args : ∀ a, make (args a) = a
  args_make : ∀ x, args (make x) = x
  names_nodup : signature.names.Nodup

/-- `fields(cls)` -/
abbrev fields (F α : Type) [Dataclass F α] : Fields F (Dataclass.Args F α) :=
  Dataclass.signature

variable {α : Type} [PostInit α] [Dataclass F α]

/-- `cls(**kwargs)` -/
def init (x : α) : Reading (Made α) :=
  match h : PostInit.post_init x with
  | none => .ok ⟨x, h⟩
  | some why => refuse why

omit [Dataclass F α] in
theorem init_ok {x : α} {p : Made α} : init x = .ok p ↔ p.obj = x := by
  obtain ⟨a, ha⟩ := p
  unfold init
  split
  · next h => simp [eq_comm]
  · next why h =>
    simp only [refuse_eq_ok, false_iff]
    rintro rfl
    simp [ha] at h

/-- `_parse(cls, obj, path)` -/
def parse (α : Type) [PostInit α] [Dataclass F α] (repr : String → String) (path : String) :
    Value F → Reading (Made α)
  | .obj m =>
      let names := (fields F α).names
      let unknown := (m.map Prod.fst).filter (fun k => !names.contains k)
      if unknown ≠ [] then
        let listed := ", ".intercalate (unknown.map repr)
        refuse s!"{path}: unknown field(s) [{listed}]"
      else do
        let kwargs ← (fields F α).kwargs repr path m
        init (Dataclass.make kwargs)
  | _ => refuse s!"{path}: expected an object"

/-- No unknown field, none missing, each of the right type. -/
def FitsClass (α : Type) [Dataclass F α] (v : Value F) : Prop :=
  ∃ m, v = .obj m ∧ (∀ e ∈ m, e.1 ∈ (fields F α).names) ∧
    (fields F α).FitIn m

def normalClass (α : Type) [Dataclass F α] : Value F → Value F
  | .obj m => .obj (m.map (fun e =>
      (e.1, (fields F α).normalAt e.1 e.2)))
  | v => v

def wireClass (p : Made α) : Value F :=
  obj ((fields F α).to_wires (Dataclass.args p.obj))

theorem objGet_map (f : String → Value F → Value F) : ∀ (m : List (String × Value F)) (k : String),
    objGet (m.map (fun e => (e.1, f e.1 e.2))) k = (objGet m k).map (f k)
  | [], _ => rfl
  | e :: m, k => by
      have ih := objGet_map f m k
      unfold objGet at ih ⊢
      by_cases hk : e.1 = k
      · simp [hk]
      · simpa [hk] using ih

/-- A member of a well-formed object is well-formed. -/
theorem wf_member {m : List (String × Value F)} {room : Nat}
    (h : (Value.obj m).WF (fun _ => True) (room + 1)) (k : String) (v : Value F)
    (hv : objGet m k = some v) : v.WF (fun _ => True) room :=
  wfMembers_iff.mp h.2 _ (objGet_mem hv)

theorem parse_accepted {repr : String → String} {path : String} {v : Value F} {p : Made α}
    {room : Nat} (hwf : v.WF (fun _ => True) room) (h : parse α repr path v = .ok p) :
    FitsClass α v ∧ (fields F α).Finite (Dataclass.args p.obj) ∧
      wireClass p = normalClass α v := by
  cases v with
  | obj m =>
      cases room with
      | zero => simp [Value.WF] at hwf
      | succ room =>
      simp only [parse] at h
      split_ifs at h with hunknown
      · exact (refuse_eq_ok.mp h).elim
      obtain ⟨x, hx, h⟩ := bind_ok.mp h
      have hp := init_ok.mp h
      have hargs : Dataclass.args p.obj = x := by rw [hp, Dataclass.args_make]
      have hnames : ∀ e ∈ m, e.1 ∈ (fields F α).names := fun e he => by
        have hnil := List.filter_eq_nil_iff.mp (not_not.mp hunknown) e.1 (List.mem_map_of_mem he)
        simpa using hnil
      obtain ⟨hfits, hfin, hwires⟩ :=
        Fields.kwargs_ok (wf_member hwf) _ Dataclass.names_nodup hx
      refine ⟨⟨m, rfl, hnames, hfits⟩, hargs ▸ hfin, ?_⟩
      rw [wireClass, hargs, normalClass]
      refine obj_eq ?_ (fun e he => ?_) (fun e he => ?_)
      · exact List.pairwise_map.mpr hwf.1
      · obtain ⟨e', he', rfl⟩ := List.mem_map.mp he
        have hkey : e'.1 ∈ ((fields F α).to_wires x).map Prod.fst := by
          rw [Fields.keys_to_wires]
          exact hnames e' he'
        obtain ⟨q, hq, heq⟩ := List.mem_map.mp hkey
        exact ⟨q.2, heq ▸ hq⟩
      · rw [objGet_map (fun k v => (fields F α).normalAt k v)]
        exact hwires e he
  | _ => exact (refuse_eq_ok.mp h).elim

theorem parse_wireClass (repr : String → String) (path : String) {p : Made α}
    (hfin : (fields F α).Finite (Dataclass.args p.obj)) :
    parse α repr path (wireClass p : Value F) = .ok p := by
  obtain ⟨l, hl, hsort, hsub, hall⟩ :=
    obj_spec ((fields F α).to_wires (Dataclass.args p.obj))
  have hkeys := Fields.keys_to_wires (fields F α) (Dataclass.args p.obj)
  have hnd := Dataclass.names_nodup (F := F) (α := α)
  have hget : ∀ e ∈ (fields F α).to_wires (Dataclass.args p.obj),
      objGet l e.1 = some e.2 := by
    intro e he
    obtain ⟨w, hw⟩ := hall e.1 ⟨e.2, he⟩
    have heq : (e.1, w) = e :=
      List.inj_on_of_nodup_map (hkeys ▸ hnd) (hsub _ hw) he rfl
    rw [objGet_of_mem hsort hw, ← heq]
  have hunknown : ¬ (l.map Prod.fst).filter
      (fun k => !(fields F α).names.contains k) ≠ [] := by
    rw [not_not, List.filter_eq_nil_iff]
    intro k hk
    obtain ⟨e, he, rfl⟩ := List.mem_map.mp hk
    have : e.1 ∈ (fields F α).names := by
      rw [← hkeys]
      exact List.mem_map_of_mem (hsub e he)
    simpa using this
  rw [wireClass, hl]
  simp only [parse]
  rw [if_neg hunknown, Fields.kwargs_to_wires repr path _ hfin hget]
  exact init_ok.mpr (Dataclass.make_args p.obj).symm

omit [PostInit α] in
theorem normalClass_plain (hno : (fields F α).floats = false)
    {v : Value F} {room : Nat} (hwf : v.WF (fun _ => True) room) (hfits : FitsClass α v) :
    normalClass α v = v := by
  obtain ⟨m, rfl, -, hin⟩ := hfits
  cases room with
  | zero => simp [Value.WF] at hwf
  | succ room =>
      rw [normalClass]
      refine congrArg Value.obj ((List.map_congr_left (fun e he => ?_)).trans (List.map_id' m))
      have hget := objGet_of_mem hwf.1 he
      exact Prod.ext rfl (Fields.normalAt_plain _ hno hin e.1 e.2 hget (wf_member hwf _ _ hget))

instance : WireType F (Made α) where
  to_wire := wireClass
  value := parse α
  Fits := FitsClass α
  Finite p := (fields F α).Finite (Dataclass.args p.obj)
  normal := normalClass α
  floats := (fields F α).floats
  accepted := parse_accepted
  value_to_wire repr path := parse_wireClass repr path
  plain hno := ⟨fun _ => Fields.finite_plain _ hno _, fun _ _ hwf => normalClass_plain hno hwf⟩

end

end Secdogie.Dialogue
