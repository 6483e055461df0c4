/-
# `Secdogie.Agent.Action` — the action in a model's answer

The agent takes the answer of a model for one JSON object, bare, fenced or in
the middle of some prose, and acts on it if its `action` is one it knows.
-/
import Secdogie.Lib.Json

namespace Secdogie.Agent

/-- `str.isspace` of one character. -/
def isSpace (c : Nat) : Bool :=
  decide (9 ≤ c ∧ c ≤ 13 ∨ 28 ≤ c ∧ c ≤ 32 ∨ 0x2000 ≤ c ∧ c ≤ 0x200a ∨
    c ∈ [0x85, 0xa0, 0x1680, 0x2028, 0x2029, 0x202f, 0x205f, 0x3000])

/-- `str.strip`, of the characters for which `p` holds. -/
def strip (p : Nat → Bool) (s : Str) : Str := ((s.dropWhile p).reverse.dropWhile p).reverse

def VALID_ACTIONS : List Str :=
  [.of "left_click", .of "right_click", .of "double_click", .of "move", .of "drag", .of "type",
    .of "key", .of "hold_key", .of "scroll", .of "open", .of "wait", .of "screenshot",
    .of "look", .of "track_click", .of "click_element", .of "run_elevated", .of "remember",
    .of "done", .of "ask_user"]

/-- What is missing is `None`. -/
structure Action where
  kind : Str
  x : Json
  y : Json
  to_x : Json
  to_y : Json
  text : Json
  keys : Json
  dx : Json
  dy : Json
  seconds : Json
  path : Json
  element : Option Str
  reasoning : Json
  raw : Json.Dict

local instance lawful_kind : LawfulBEq Str := inferInstance

/-- `Action.from_dict`; `none` when it raises.  `str` is the built-in. -/
def from_dict (str : Json → Str) : Json → Option Action
  | .obj d =>
      let field := fun (k : String) => (Json.get d (.of k)).getD .null
      match Json.get d (.of "action") with
      | some (.str kind) =>
          if kind ∈ VALID_ACTIONS then
            some
              { kind
                x := field "x"
                y := field "y"
                to_x := field "to_x"
                to_y := field "to_y"
                text := field "text"
                keys := field "keys"
                dx := field "dx"
                dy := field "dy"
                seconds := field "seconds"
                path := field "path"
                element :=
                  match field "element" with
                  | .null => none
                  | v => some (str v)
                reasoning := field "reasoning"
                raw := d }
          else none
      | _ => none
  | _ => none

/-- Without the name of the language after an opening fence. -/
def dropJson (s : Str) : Str := if (Str.of "json").isPrefixOf s then s.drop 4 else s

/-- The text without blanks around it, and without a fence. -/
def stripFence (text : Str) : Str :=
  let stripped := strip isSpace text
  if (Str.of "```").isPrefixOf stripped then
    strip isSpace (dropJson (strip (fun c => c = '`'.toNat) stripped))
  else stripped

/-- What the regular expression for an object finds: the text from the first
opening brace to the last closing one. -/
def objectMatch (text : Str) : Option Str :=
  let s := text.dropWhile (fun c => c ≠ '\x7b'.toNat)
  let s := (s.reverse.dropWhile (fun c => c ≠ '\x7d'.toNat)).reverse
  if s = [] then none else some s

/-- `parse_action_json`; `none` when it raises. -/
def parse_action_json (room : Nat) (text : Str) : Option Json :=
  match Json.loads room (stripFence text) with
  | .ok v => some v
  | .error .malformed => (objectMatch text).bind (fun m => (Json.loads room m).toOption)
  | .error _ => none

/-! ## What is parsed is in the text -/

/-- `s` is in the text, after nothing but what `p` allows. -/
def After (p : Nat → Prop) (text s : Str) : Prop :=
  ∃ pre post, text = pre ++ s ++ post ∧ ∀ c ∈ pre, p c

theorem After.trans {p : Nat → Prop} {text s s' : Str} (h : After p text s) (h' : After p s s') :
    After p text s' := by
  obtain ⟨pre, post, rfl, hpre⟩ := h
  obtain ⟨pre', post', rfl, hpre'⟩ := h'
  refine ⟨pre ++ pre', post' ++ post, by simp only [List.append_assoc], ?_⟩
  intro c hc
  rcases List.mem_append.mp hc with hc | hc
  · exact hpre c hc
  · exact hpre' c hc

theorem after_dropWhile {p : Nat → Prop} {q : Nat → Bool} (hq : ∀ c, q c = true → p c)
    (s : Str) : After p s (s.dropWhile q) := by
  refine ⟨s.takeWhile q, [], ?_, ?_⟩
  · rw [List.append_nil, List.takeWhile_append_dropWhile]
  · exact fun c hc => hq c (List.mem_takeWhile_imp hc)

theorem after_strip {p : Nat → Prop} {q : Nat → Bool} (hq : ∀ c, q c = true → p c) (s : Str) :
    After p s (strip q s) := by
  refine (after_dropWhile hq s).trans ⟨[], ((s.dropWhile q).reverse.takeWhile q).reverse, ?_, ?_⟩
  · rw [List.nil_append, strip, ← List.reverse_append, List.takeWhile_append_dropWhile,
      List.reverse_reverse]
  · exact fun _ h => nomatch h

/-- Neither a bracket nor a brace. -/
def NotOpen (c : Nat) : Prop := c ≠ '['.toNat ∧ c ≠ '\x7b'.toNat

theorem notOpen_isSpace {c : Nat} (h : isSpace c = true) : NotOpen c := by
  constructor
  · rintro rfl
    cases h
  · rintro rfl
    cases h

theorem after_dropJson (s : Str) : After NotOpen s (dropJson s) := by
  rw [dropJson]
  split_ifs with hjson
  · obtain ⟨s', rfl⟩ := List.isPrefixOf_iff_prefix.mp hjson
    refine ⟨Str.of "json", [], by rw [List.append_nil]; rfl, ?_⟩
    unfold NotOpen
    decide
  · exact ⟨[], [], (List.append_nil s).symm, fun _ h => nomatch h⟩

theorem after_stripFence (text : Str) : After NotOpen text (stripFence text) := by
  have hspace : ∀ s, After NotOpen s (strip isSpace s) :=
    after_strip (fun _ => notOpen_isSpace)
  have hfence : ∀ s, After NotOpen s (strip (fun c => c = '`'.toNat) s) := by
    refine after_strip (fun c hc => ?_)
    obtain rfl : c = '`'.toNat := of_decide_eq_true hc
    exact ⟨by decide, by decide⟩
  rw [stripFence]
  split_ifs
  · exact (hspace text).trans ((hfence _).trans ((after_dropJson _).trans (hspace _)))
  · exact hspace text

/-- An object that is the whole of an answer is decoded at the first place
where one may start. -/
theorem after_loads {room : Nat} {s : Str} {d : Json.Dict} (h : Json.loads room s = .ok (.obj d)) :
    ∃ s' rest, After NotOpen s s' ∧ Json.raw_decode room s' = .ok (.obj d, rest) := by
  rw [Json.loads] at h
  split_ifs at h
  obtain ⟨⟨v, rest⟩, hdecode, h⟩ := Json.bind_ok h
  dsimp only at h
  split_ifs at h
  cases h
  refine ⟨Json.skipWs s, rest, after_dropWhile ?_ s, hdecode⟩
  intro c hc
  constructor
  · rintro rfl
    cases hc
  · rintro rfl
    cases hc

end Secdogie.Agent
