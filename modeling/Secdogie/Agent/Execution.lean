/-
# `Secdogie.Agent.Execution` — what an action does to the keyboard

An action is executed by calls of the input library, which knows keys by name
and presses nothing for a name it does not know.  Which keys are down at one
time is read off the calls: `Presses` is whether a set of keys with a property
ever is.

Durations, settling times and the texts that are returned are left out.
-/
import Mathlib

namespace Secdogie.Agent

/-- `VALID_ACTIONS` -/
inductive ActionKind where
  | left_click | right_click | double_click | move | drag | type | key | hold_key | scroll | open
  | wait | screenshot | look | track_click | click_element | run_elevated | remember | done
  | ask_user
deriving DecidableEq

/-- `Action`, each field of the type it is annotated with. -/
structure TypedAction where
  kind : ActionKind
  x : Option Int := none
  y : Option Int := none
  to_x : Option Int := none
  to_y : Option Int := none
  text : Option String := none
  keys : Option (List String) := none
  dx : Option Int := none
  dy : Option Int := none
  seconds : Option ℚ := none
  path : Option String := none
  element : Option String := none
deriving DecidableEq

/-- `sys.platform` -/
inductive Platform where
  | windows
  | darwin
  | linux
deriving DecidableEq

inductive Button where
  | left
  | right
deriving DecidableEq

/-- A call of the input library, or of what stands beside it. -/
inductive InputCall where
  | moveTo (x y : Option Int)
  | click (button : Button)
  | doubleClick
  | dragTo (x y : Option Int)
  | hscroll (n : Int)
  | vscroll (n : Int)
  | typewrite (text : String)
  | press (name : String)
  | hotkey (names : List String)
  | keyDown (name : String)
  | keyUp (name : String)
  | sleep (seconds : ℚ)
  | open (path : String)
  | track_click (x y : Option Int) (seconds : Option ℚ)
deriving DecidableEq

/-- `_DARWIN_HID_KINDS` -/
def DARWIN_HID_KINDS : List ActionKind :=
  [.left_click, .right_click, .double_click, .move, .drag, .scroll, .track_click, .type, .key,
    .hold_key]

/-- `str.isascii` -/
def isascii (text : String) : Bool := text.toList.all fun c => c.toNat < 128

/-- A number that is neither `None` nor 0. -/
def nonzero (n : Option Int) (call : Int → InputCall) : List InputCall :=
  match n with
  | none => []
  | some n => if n = 0 then [] else [call n]

/-- `_dispatch`, with `_paste_text` and `_open_path`; `none` if it raises. -/
def dispatch (platform : Platform) (a : TypedAction) : Option (List InputCall) :=
  if platform = .darwin ∧ a.kind ∈ DARWIN_HID_KINDS then some []
  else
    match a.kind with
    | .left_click => some [.moveTo a.x a.y, .click .left]
    | .right_click => some [.moveTo a.x a.y, .click .right]
    | .double_click => some [.moveTo a.x a.y, .doubleClick]
    | .move => some [.moveTo a.x a.y]
    | .drag => some [.moveTo a.x a.y, .dragTo a.to_x a.to_y]
    | .type =>
        let text := a.text.getD ""
        if isascii text then some [.typewrite text] else some [.hotkey ["ctrl", "v"]]
    | .key =>
        match a.keys.getD [] with
        | [] => some []
        | [key] => some [.press key]
        | keys => some [.hotkey keys]
    | .hold_key =>
        let keys := a.keys.getD []
        some (keys.map .keyDown ++ .sleep (a.seconds.getD 1) :: keys.reverse.map .keyUp)
    | .open =>
        match a.path with
        | none | some "" => none
        | some path => some [.open path]
    | .scroll => some (.moveTo a.x a.y :: (nonzero a.dx .hscroll ++ nonzero a.dy .vscroll))
    | .track_click => some [.track_click a.x a.y a.seconds]
    | .wait => some [.sleep (if a.seconds.getD 0 = 0 then 1 else a.seconds.getD 0)]
    | .screenshot => some []
    | .look | .click_element | .run_elevated | .remember | .done | .ask_user => none

/-! ## The keyboard -/

/-- A key, as far as the combinations below tell keys apart. -/
inductive Key where
  | ctrl | command | alt | option | delete | backspace | f4 | s | w | enter
  | other (name : String)
deriving DecidableEq

/-- The input library: `str.lower`, and the key that it presses for a name. -/
structure Keyboard where
  lower : String → String
  key : String → Option Key
  ctrl : key (lower "ctrl") = some .ctrl
  v : key "v" = some (.other "v")

/-- The key for a name: one of more than one character is lowered first. -/
def Keyboard.find (K : Keyboard) (name : String) : Option Key :=
  K.key (if 1 < name.length then K.lower name else name)

inductive KeyEvent where
  | down (k : Key)
  | up (k : Key)
deriving DecidableEq

/-- Keys go down in order, and up in the other order. -/
def chord (K : Keyboard) (names : List String) : List KeyEvent :=
  let keys := names.filterMap K.find
  keys.map .down ++ keys.reverse.map .up

/-- What a call does to the keyboard. -/
def events (K : Keyboard) : InputCall → List KeyEvent
  | .press name => chord K [name]
  | .hotkey names => chord K names
  | .keyDown name => (K.find name).toList.map .down
  | .keyUp name => (K.find name).toList.map .up
  | .typewrite text => text.toList.flatMap fun c => chord K [String.singleton c]
  | _ => []

/-- The keys that are down after an event. -/
def after (held : List Key) : KeyEvent → List Key
  | .down k => k :: held
  | .up k => held.filter (· ≠ k)

/-- The keys that are down before and after each event. -/
def states : List Key → List KeyEvent → List (List Key)
  | held, [] => [held]
  | held, e :: es => held :: states (after held e) es

/-- Executing the action holds down keys with the property at one time. -/
def Presses (K : Keyboard) (platform : Platform) (a : TypedAction) (p : List Key → Prop) : Prop :=
  ∃ calls, dispatch platform a = some calls ∧ ∃ held ∈ states [] (calls.flatMap (events K)), p held

/-! ## What is down at one time -/

variable {K : Keyboard} {held : List Key} {es es' : List KeyEvent} {k : Key}

theorem mem_states_self : held ∈ states held es := by
  cases es with
  | nil => exact List.mem_singleton_self held
  | cons e es => exact List.mem_cons_self

theorem down_of_mem_states {h' : List Key} : ∀ {es : List KeyEvent} {held : List Key},
    h' ∈ states held es → ∀ k ∈ h', k ∈ held ∨ .down k ∈ es
  | [], held, h, k, hk => .inl (List.mem_singleton.mp h ▸ hk)
  | e :: es, held, h, k, hk => by
      rcases List.mem_cons.mp h with rfl | h
      · exact .inl hk
      · rcases down_of_mem_states h k hk with hin | hin
        · cases e with
          | down j =>
              rcases List.mem_cons.mp hin with rfl | hin
              · exact .inr List.mem_cons_self
              · exact .inl hin
          | up j => exact .inl (List.mem_filter.mp hin).1
        · exact .inr (List.mem_cons_of_mem e hin)

/-- After the last of some keys is down they all are, and those before. -/
theorem states_downs (es : List KeyEvent) : ∀ (keys held : List Key),
    ∃ h' ∈ states held (keys.map .down ++ es), (∀ k ∈ keys, k ∈ h') ∧ ∀ k ∈ held, k ∈ h'
  | [], held => ⟨held, mem_states_self, fun _ hk => absurd hk List.not_mem_nil, fun _ hk => hk⟩
  | k :: keys, held => by
      obtain ⟨h', hmem, hkeys, hheld⟩ := states_downs es keys (k :: held)
      refine ⟨h', List.mem_cons_of_mem held hmem, fun j hj => ?_, fun j hj => ?_⟩
      · rcases List.mem_cons.mp hj with rfl | hj
        · exact hheld j List.mem_cons_self
        · exact hkeys j hj
      · exact hheld j (List.mem_cons_of_mem k hj)

/-- A key that is pressed alone. -/
theorem states_press (es : List KeyEvent) :
    states [] (.down k :: .up k :: es) = [] :: [k] :: states [] es := by
  rw [states, states, after, after, List.filter_cons_of_neg (by simp)]
  rfl

theorem keyDowns (K : Keyboard) : ∀ names : List String,
    (names.map .keyDown).flatMap (events K) = (names.filterMap K.find).map .down
  | [] => rfl
  | n :: names => by
      rw [List.map_cons, List.flatMap_cons, keyDowns K names, events, List.filterMap_cons]
      cases K.find n <;> rfl

theorem not_down_keyUps (names : List String) : .down k ∉ (names.map .keyUp).flatMap (events K) := by
  intro h
  obtain ⟨call, hcall, hdown⟩ := List.mem_flatMap.mp h
  obtain ⟨n, -, rfl⟩ := List.mem_map.mp hcall
  obtain ⟨j, -, heq⟩ := List.mem_map.mp hdown
  exact nomatch heq

end Secdogie.Agent
