/-
# `Secdogie.Lib.JsonText` — JSON texts, as Python's encoder writes them

`text` is `json.dumps` without `ensure_ascii`: with a blank after each comma
and colon, or without, and `sorted` puts the members of every object in the
order of their keys.  How a number is printed is a parameter, `Numerals`; a
number in memory is held by what it prints as.

`reads_text`: what is written is read back.  So equal texts are of equal values
(`text_inj`), and sorted texts of values that agree up to the order of members
(`sorted_eq_of_text`).
-/
import Secdogie.Lib.Json

namespace Secdogie.Json

/-! ## The encoder -/

/-- The character an escape of two stands for. -/
def shortChar (c : Nat) : Option Nat :=
  if c = '"'.toNat ∨ c = '\\'.toNat then some c
  else if c = 0x0a then some 'n'.toNat
  else if c = 0x0d then some 'r'.toNat
  else if c = 0x09 then some 't'.toNat
  else if c = 0x0c then some 'f'.toNat
  else if c = 0x08 then some 'b'.toNat
  else none

def hexDigit (n : Nat) : Nat := if n < 10 then '0'.toNat + n else 'a'.toNat + (n - 10)

def escapeChar (c : Nat) : Str :=
  match shortChar c with
  | some e => ['\\'.toNat, e]
  | none =>
      if c < 0x20 then
        ['\\'.toNat, 'u'.toNat, '0'.toNat, '0'.toNat, hexDigit (c / 16), hexDigit (c % 16)]
      else [c]

def escape (s : Str) : Str := s.flatMap escapeChar

def quote (s : Str) : Str := '"'.toNat :: escape s ++ ['"'.toNat]

/-- No number goes on with what comes next. -/
def Stops (rest : Str) : Prop := ∀ c r, rest = c :: r → isDelimiter c = true

/-- The token of an integer. -/
def decimal (n : Nat) : Str := (Nat.toDigits 10 n).map Char.toNat

/-- The numbers of the interpreter, each by a token it is read from: how it is
printed, whether it is printed at all (an integer of too many digits is not),
and whether it equals an integer. -/
structure Numerals where
  repr : Str → Str
  prints : Str → Bool
  equals : Str → Nat → Bool
  /-- a numeral is one token of JSON -/
  reads : ∀ t, prints t = true → ∀ rest, Stops rest →
    scalar (repr t ++ rest) = .ok (.num (repr t), rest)
  plain : ∀ t, prints t = true → ∀ c ∈ repr t, 0x20 < c ∧ c < 0x7f
  repr_decimal : ∀ n, prints (decimal n) = true → repr (decimal n) = decimal n
  equals_decimal : ∀ n m, equals (decimal n) m = decide (n = m)

theorem decimal_inj {n m : Nat} (h : decimal n = decimal m) : n = m := by
  have hdigits : Nat.toDigits 10 n = Nat.toDigits 10 m :=
    List.map_injective_iff.mpr (fun a b hab => Char.toNat_inj.mp hab) h
  rw [← Nat.ofDigitChars_ten_toDigits (n := n), hdigits, Nat.ofDigitChars_ten_toDigits]

/-- A token that is read the same before every delimiter and at the end. -/
def isToken (t : Str) : Bool :=
  t.all (fun c => decide (0x20 < c ∧ c < 0x7f)) &&
    ([] :: [0x20, 0x09, 0x0a, 0x0d, ','.toNat, ']'.toNat, '\x7d'.toNat].map ([·])).all (fun u =>
      match scalar (t ++ u) with
      | .ok (.num t', u') => decide (t' = t ∧ u' = u)
      | _ => false)

theorem scalar_token {t : Str} (h : isToken t = true) {rest : Str} (hrest : Stops rest) :
    scalar (t ++ rest) = .ok (.num t, rest) := by
  rw [isToken, Bool.and_eq_true, List.all_eq_true (l := _ :: _)] at h
  have hread : ∀ u ∈ [] :: [0x20, 0x09, 0x0a, 0x0d, ','.toNat, ']'.toNat, '\x7d'.toNat].map ([·]),
      scalar (t ++ u) = .ok (.num t, u) := by
    intro u hu
    have hu := h.2 u hu
    split at hu
    · next t' u' heq =>
        rw [heq, (of_decide_eq_true hu).1, (of_decide_eq_true hu).2]
    · cases hu
  cases rest with
  | nil => exact hread [] List.mem_cons_self
  | cons c r =>
      have hc := hrest c r rfl
      have hmem : [c] ∈ [0x20, 0x09, 0x0a, 0x0d, ','.toNat, ']'.toNat, '\x7d'.toNat].map ([·]) := by
        rw [List.mem_map]
        refine ⟨c, ?_, rfl⟩
        simp only [isDelimiter, isWs, Bool.or_eq_true, decide_eq_true_eq] at hc
        simp only [List.mem_cons, List.not_mem_nil, or_false]
        tauto
      have hspec := (scalar_spec (hread [c] (List.mem_cons_of_mem _ hmem))).2.2 r
        ⟨c, List.mem_cons_self, hc⟩
      rwa [List.append_assoc] at hspec

/-- Numbers that are printed as they were read. -/
def Numerals.verbatim : Numerals where
  repr t := t
  prints := isToken
  equals t n := decide (t = Json.decimal n)
  reads t h rest hrest := scalar_token h hrest
  plain t h c hc := by
    rw [isToken, Bool.and_eq_true, List.all_eq_true] at h
    exact of_decide_eq_true (h.1 c hc)
  repr_decimal _ _ := rfl
  equals_decimal n m := decide_eq_decide.mpr ⟨decimal_inj, congrArg _⟩

section

variable (R : Numerals) (pad : Str)

mutual

/-- `json.dumps`, with `pad` after each comma and colon -/
def text : Json → Str
  | .null => .of "null"
  | .bool true => .of "true"
  | .bool false => .of "false"
  | .num t => R.repr t
  | .str s => quote s
  | .arr items => '['.toNat :: textItems items
  | .obj ms => '\x7b'.toNat :: textMembers ms

/-- The items of a list and its closing bracket. -/
def textItems : List Json → Str
  | [] => [']'.toNat]
  | v :: vs => text v ++ moreItems vs

def moreItems : List Json → Str
  | [] => [']'.toNat]
  | v :: vs => ','.toNat :: pad ++ text v ++ moreItems vs

/-- The members of an object and its closing brace. -/
def textMembers : List (Str × Json) → Str
  | [] => ['\x7d'.toNat]
  | (k, v) :: ms => quote k ++ ':'.toNat :: pad ++ text v ++ moreMembers ms

def moreMembers : List (Str × Json) → Str
  | [] => ['\x7d'.toNat]
  | (k, v) :: ms => ','.toNat :: pad ++ quote k ++ ':'.toNat :: pad ++ text v ++ moreMembers ms

end

mutual

/-- The stack has room for the containers in one another, and every number is
printed. -/
def fits : Nat → Json → Bool
  | _, .num t => R.prints t
  | 0, .arr _ => false
  | room + 1, .arr items => fitsItems room items
  | 0, .obj _ => false
  | room + 1, .obj ms => fitsMembers room ms
  | _, _ => true

def fitsItems (room : Nat) : List Json → Bool
  | [] => true
  | v :: vs => fits room v && fitsItems room vs

def fitsMembers (room : Nat) : List (Str × Json) → Bool
  | [] => true
  | (_, v) :: ms => fits room v && fitsMembers room ms

end

/-- `json.dumps`; `none` if it raises -/
def dumps (room : Nat) (v : Json) : Option Str :=
  if fits R room v then some (text R pad v) else none

end

mutual

/-- `sort_keys`: the members of each object by their keys. -/
def sorted : Json → Json
  | .arr items => .arr (sortedItems items)
  | .obj ms => .obj ((sortedMembers ms).mergeSort (fun a b => decide (a.1 ≤ b.1)))
  | v => v

def sortedItems : List Json → List Json
  | [] => []
  | v :: vs => sorted v :: sortedItems vs

def sortedMembers : List (Str × Json) → List (Str × Json)
  | [] => []
  | (k, v) :: ms => (k, sorted v) :: sortedMembers ms

end

mutual

/-- A value that was read, as it is held in memory: a number by what it prints
as. -/
def held (R : Numerals) : Json → Json
  | .num t => .num (R.repr t)
  | .arr items => .arr (heldItems R items)
  | .obj ms => .obj (heldMembers R ms)
  | v => v

def heldItems (R : Numerals) : List Json → List Json
  | [] => []
  | v :: vs => held R v :: heldItems R vs

def heldMembers (R : Numerals) : List (Str × Json) → List (Str × Json)
  | [] => []
  | (k, v) :: ms => (k, held R v) :: heldMembers R ms

end

mutual

/-- It is as it is held in memory, and no object has a key twice. -/
def Held (R : Numerals) : Json → Prop
  | .num t => R.repr t = t
  | .arr items => HeldItems R items
  | .obj ms => (ms.map Prod.fst).Nodup ∧ HeldMembers R ms
  | _ => True

def HeldItems (R : Numerals) : List Json → Prop
  | [] => True
  | v :: vs => Held R v ∧ HeldItems R vs

def HeldMembers (R : Numerals) : List (Str × Json) → Prop
  | [] => True
  | (_, v) :: ms => Held R v ∧ HeldMembers R ms

end

mutual

/-- Every character of its strings is of the kind. -/
def Spelled (P : Nat → Prop) : Json → Prop
  | .str s => ∀ c ∈ s, P c
  | .arr items => SpelledItems P items
  | .obj ms => SpelledMembers P ms
  | _ => True

def SpelledItems (P : Nat → Prop) : List Json → Prop
  | [] => True
  | v :: vs => Spelled P v ∧ SpelledItems P vs

def SpelledMembers (P : Nat → Prop) : List (Str × Json) → Prop
  | [] => True
  | (k, v) :: ms => (∀ c ∈ k, P c) ∧ Spelled P v ∧ SpelledMembers P ms

end

/-! ## Strings are read back -/

theorem hex4_low : ∀ c < 0x20, hex4 '0'.toNat '0'.toNat (hexDigit (c / 16)) (hexDigit (c % 16)) =
    some c := by decide

theorem shortEscape_shortChar {c e : Nat} (h : shortChar c = some e) :
    e ≠ 'u'.toNat ∧ shortEscape e = some c := by
  rw [shortChar] at h
  split_ifs at h with h1 h2 h3 h4 h5 h6 <;> obtain rfl := Option.some.inj h
  · rcases h1 with rfl | rfl <;> decide
  all_goals
    subst_vars
    decide

theorem shortChar_none {c : Nat} (h : shortChar c = none) : c ≠ '"'.toNat ∧ c ≠ '\\'.toNat := by
  rw [shortChar] at h
  split_ifs at h with h1
  exact not_or.mp h1

/-- A character is read back, as an escape of six only if it is a control. -/
theorem scanChars_escapeChar (c : Nat) : ∃ u : Bool, (u = true → c < 0x20) ∧ ∀ s,
    scanChars (escapeChar c ++ s) = (scanChars s).map (fun r => ((u, c) :: r.1, r.2)) := by
  rw [escapeChar]
  cases hshort : shortChar c with
  | some e =>
      obtain ⟨hu, he⟩ := shortEscape_shortChar hshort
      refine ⟨false, nofun, fun s => ?_⟩
      change scanChars ('\\'.toNat :: e :: s) = _
      rw [scanChars.eq_def]
      dsimp only
      rw [if_neg (by decide), if_pos rfl, if_neg hu, he]
  | none =>
      obtain ⟨hquote, hback⟩ := shortChar_none hshort
      simp only
      split_ifs with hlow
      · refine ⟨true, fun _ => hlow, fun s => ?_⟩
        change scanChars ('\\'.toNat :: 'u'.toNat :: '0'.toNat :: '0'.toNat ::
          hexDigit (c / 16) :: hexDigit (c % 16) :: s) = _
        rw [scanChars.eq_def]
        dsimp only
        rw [if_neg (by decide), if_pos rfl, if_pos rfl, hex4_low c hlow]
      · refine ⟨false, nofun, fun s => ?_⟩
        change scanChars (c :: s) = _
        rw [scanChars.eq_def]
        dsimp only
        rw [if_neg hquote, if_neg hback, if_neg hlow]

theorem joinSurrogates_eq {l : List (Bool × Nat)} (h : ∀ x ∈ l, x.1 = true → x.2 < 0x20) :
    joinSurrogates l = l.map Prod.snd := by
  induction l using joinSurrogates.induct with
  | case1 => rfl
  | case2 x => rfl
  | case3 x y l hjoin ih =>
      have hx := h x List.mem_cons_self hjoin.1
      omega
  | case4 x y l hjoin ih =>
      rw [joinSurrogates, if_neg hjoin, ih (fun z hz => h z (List.mem_cons_of_mem _ hz))]
      rfl

theorem scanString_escape (s rest : Str) :
    scanString (escape s ++ '"'.toNat :: rest) = .ok (s, rest) := by
  have hscan : ∃ x : List (Bool × Nat), (∀ y ∈ x, y.1 = true → y.2 < 0x20) ∧
      x.map Prod.snd = s ∧ scanChars (escape s ++ '"'.toNat :: rest) = .ok (x, rest) := by
    induction s with
    | nil =>
        refine ⟨[], nofun, rfl, ?_⟩
        change scanChars ('"'.toNat :: rest) = _
        rw [scanChars.eq_def]
        rfl
    | cons c s ih =>
        obtain ⟨x, hlow, hx, hs⟩ := ih
        obtain ⟨u, hu, hc⟩ := scanChars_escapeChar c
        refine ⟨(u, c) :: x, ?_, by rw [List.map_cons, hx], ?_⟩
        · intro y hy
          rcases List.mem_cons.mp hy with rfl | hy
          · exact hu
          · exact hlow y hy
        · rw [escape, List.flatMap_cons, List.append_assoc, hc]
          change (scanChars (escape s ++ '"'.toNat :: rest)).map _ = _
          rw [hs]
          rfl
  obtain ⟨x, hlow, hx, hs⟩ := hscan
  rw [scanString, hs]
  show Except.ok (joinSurrogates x, rest) = _
  rw [joinSurrogates_eq hlow, hx]

/-! ## Values are read back -/

section

variable {R : Numerals} {pad : Str}

theorem stops_nil : Stops [] := nofun

theorem stops_cons {c : Nat} (h : isDelimiter c = true) (rest : Str) : Stops (c :: rest) :=
  fun c' r heq => by
    obtain rfl := (List.cons.inj heq).1
    exact h

theorem skipWs_cons_self {c : Nat} (h : isWs c = false) (s : Str) : skipWs (c :: s) = c :: s := by
  rw [skipWs, List.dropWhile_cons_of_neg (by rw [h]; decide)]

theorem skipWs_pad (hpad : pad.all isWs = true) (s : Str) : skipWs (pad ++ s) = skipWs s := by
  induction pad with
  | nil => rfl
  | cons c pad ih =>
      rw [List.all_cons, Bool.and_eq_true] at hpad
      rw [List.cons_append, skipWs, List.dropWhile_cons_of_pos hpad.1]
      exact ih hpad.2

/-- What starts a value: no blank, and nothing that ends a container. -/
def Opens (c : Nat) : Prop := isWs c = false ∧ c ≠ ']'.toNat ∧ c ≠ '\x7d'.toNat

theorem scalar_opens {c : Nat} {s rest : Str} {v : Json} (h : scalar (c :: s) = .ok (v, rest)) :
    Opens c ∧ c ≠ '"'.toNat ∧ c ≠ '\x7b'.toNat ∧ c ≠ '['.toNat := by
  have hnot : ∀ d, d = '"'.toNat ∨ d = '\x7b'.toNat ∨ d = '['.toNat ∨ d = ']'.toNat ∨
      d = '\x7d'.toNat ∨ isWs d = true → c ≠ d := by
    rintro d hd rfl
    have hbad : scalar (c :: s) = .error .malformed := by
      have hws : isWs c = true → c = 0x20 ∨ c = 0x09 ∨ c = 0x0a ∨ c = 0x0d := fun h => by
        simpa [isWs, or_assoc] using h
      rcases hd with rfl | rfl | rfl | rfl | rfl | hd
      · rfl
      · rfl
      · rfl
      · rfl
      · rfl
      · rcases hws hd with rfl | rfl | rfl | rfl <;> rfl
    rw [hbad] at h
    cases h
  refine ⟨⟨?_, hnot _ (.inr (.inr (.inr (.inl rfl)))), hnot _ (.inr (.inr (.inr (.inr (.inl rfl)))))⟩,
    hnot _ (.inl rfl), hnot _ (.inr (.inl rfl)), hnot _ (.inr (.inr (.inl rfl)))⟩
  rw [← Bool.not_eq_true]
  exact fun hws => hnot c (.inr (.inr (.inr (.inr (.inr hws))))) rfl

theorem repr_opens {t : Str} (h : R.prints t = true) :
    ∃ c u, R.repr t = c :: u ∧ Opens c ∧ c ≠ '"'.toNat ∧ c ≠ '\x7b'.toNat ∧ c ≠ '['.toNat := by
  have hread := R.reads t h [] stops_nil
  rw [List.append_nil] at hread
  cases hr : R.repr t with
  | nil =>
      rw [hr] at hread
      cases hread
  | cons c u =>
      rw [hr] at hread
      exact ⟨c, u, rfl, scalar_opens hread⟩

theorem text_opens {room : Nat} : ∀ {v : Json}, fits R room v = true →
    ∃ c u, text R pad v = c :: u ∧ Opens c
  | .null, _ => ⟨_, _, rfl, by decide, by decide, by decide⟩
  | .bool true, _ => ⟨_, _, rfl, by decide, by decide, by decide⟩
  | .bool false, _ => ⟨_, _, rfl, by decide, by decide, by decide⟩
  | .str _, _ => ⟨_, _, rfl, by decide, by decide, by decide⟩
  | .arr _, _ => ⟨_, _, rfl, by decide, by decide, by decide⟩
  | .obj _, _ => ⟨_, _, rfl, by decide, by decide, by decide⟩
  | .num t, h => by
      have hp : R.prints t = true := by
        cases room <;> exact h
      obtain ⟨c, u, hcu, hopens, -⟩ := repr_opens hp
      exact ⟨c, u, hcu, hopens⟩

/-- `raw_decode` reads the value wherever it is written. -/
def ReadsText (R : Numerals) (pad : Str) (room : Nat) (v : Json) : Prop :=
  ∀ rest, Stops rest → raw_decode room (text R pad v ++ rest) = .ok (v, rest)

theorem raw_decode_eq (room : Nat) : ∃ nested, raw_decode room = valueStep nested := by
  cases room with
  | zero => exact ⟨_, rfl⟩
  | succ room => exact ⟨_, rfl⟩

theorem reads_scalar (room : Nat) {c : Nat} {u rest : Str} {v : Json}
    (hc : c ≠ '"'.toNat ∧ c ≠ '\x7b'.toNat ∧ c ≠ '['.toNat)
    (h : scalar (c :: u) = .ok (v, rest)) : raw_decode room (c :: u) = .ok (v, rest) := by
  obtain ⟨nested, hstep⟩ := raw_decode_eq room
  rw [hstep, valueStep.eq_def]
  dsimp only
  rw [if_neg hc.1, if_neg hc.2.1, if_neg hc.2.2, h]

theorem reads_num (room : Nat) {t : Str} (hp : R.prints t = true) (ht : R.repr t = t) :
    ReadsText R pad room (.num t) := by
  intro rest hrest
  obtain ⟨c, u, hcu, _, hc⟩ := repr_opens hp
  have hread := R.reads t hp rest hrest
  rw [hcu, List.cons_append] at hread
  rw [text, hcu, List.cons_append, reads_scalar room hc hread, ← hcu, ht]

theorem reads_str (room : Nat) (x : Str) : ReadsText R pad room (.str x) := by
  intro rest _
  obtain ⟨nested, hstep⟩ := raw_decode_eq room
  have htext : text R pad (.str x) ++ rest = '"'.toNat :: (escape x ++ '"'.toNat :: rest) := by
    simp [text, quote]
  rw [hstep, htext, valueStep.eq_def]
  dsimp only
  rw [if_pos rfl, scanString_escape]
  rfl

theorem reads_literal (room : Nat) (l : String) (v : Json) (c : Nat) (u : Str)
    (hl : Str.of l = c :: u) (hc : c ≠ '"'.toNat ∧ c ≠ '\x7b'.toNat ∧ c ≠ '['.toNat)
    (hscalar : ∀ s, scalar (c :: s) = literal (.of l) v (c :: s)) (rest : Str) :
    raw_decode room (Str.of l ++ rest) = .ok (v, rest) := by
  rw [hl, List.cons_append]
  refine reads_scalar room hc ?_
  rw [hscalar, literal, hl, ← List.cons_append, List.drop_left, if_pos]
  rw [List.isPrefixOf_iff_prefix]
  exact List.prefix_append _ _

theorem stops_moreItems (vs : List Json) (rest : Str) : Stops (moreItems R pad vs ++ rest) := by
  cases vs with
  | nil => exact stops_cons (by decide) rest
  | cons v vs => exact stops_cons (by decide) _

theorem stops_moreMembers (ms : List (Str × Json)) (rest : Str) :
    Stops (moreMembers R pad ms ++ rest) := by
  cases ms with
  | nil => exact stops_cons (by decide) rest
  | cons m ms => exact stops_cons (by decide) _

theorem skipWs_text {room : Nat} {v : Json} (hv : fits R room v = true) (rest : Str) :
    skipWs (text R pad v ++ rest) = text R pad v ++ rest := by
  obtain ⟨c, u, hcu, hopens⟩ := @text_opens R pad _ _ hv
  rw [hcu, List.cons_append, skipWs_cons_self hopens.1]

theorem put_new (k : Str) (v : Json) : ∀ (d : Dict), k ∉ d.map Prod.fst → put k v d = d ++ [(k, v)]
  | [], _ => rfl
  | m :: d, h => by
      rw [List.map_cons, List.mem_cons, not_or] at h
      rw [put, if_neg (Ne.symm h.1), put_new k v d h.2]
      rfl

theorem length_le_moreItems : ∀ vs : List Json, vs.length < (moreItems R pad vs).length
  | [] => by simp [moreItems]
  | v :: vs => by
      have ih := length_le_moreItems vs
      simp only [moreItems, List.length_cons, List.length_append]
      omega

theorem length_le_moreMembers : ∀ ms : List (Str × Json),
    ms.length < (moreMembers R pad ms).length
  | [] => by simp [moreMembers]
  | (k, v) :: ms => by
      have ih := length_le_moreMembers ms
      simp only [moreMembers, List.length_cons, List.length_append]
      omega

section

variable (hpad : pad.all isWs = true)
include hpad

theorem elements_text {room : Nat} : ∀ (vs : List Json) (v : Json) (n : Nat) (rest : Str),
    vs.length < n → fits R room v = true → fitsItems R room vs = true →
    ReadsText R pad room v → (∀ w ∈ vs, ReadsText R pad room w) →
    elements (raw_decode room) n (text R pad v ++ (moreItems R pad vs ++ rest)) =
      .ok (v :: vs, rest)
  | _, _, 0, _, hn, _, _, _, _ => absurd hn (Nat.not_lt_zero _)
  | [], v, n + 1, rest, _, _, _, hv, _ => by
      have htext : moreItems R pad [] ++ rest = ']'.toNat :: rest := rfl
      rw [elements, hv _ (stops_moreItems [] rest), htext]
      simp only [bind, Except.bind]
      rw [skipWs_cons_self (by decide)]
      rfl
  | w :: vs, v, n + 1, rest, hn, _, hvs, hv, hall => by
      rw [fitsItems, Bool.and_eq_true] at hvs
      have ih := elements_text vs w n rest (Nat.lt_of_succ_lt_succ hn) hvs.1 hvs.2
        (hall w List.mem_cons_self) (fun x hx => hall x (List.mem_cons_of_mem _ hx))
      have htext : moreItems R pad (w :: vs) ++ rest =
          ','.toNat :: (pad ++ (text R pad w ++ (moreItems R pad vs ++ rest))) := by
        simp [moreItems]
      rw [elements, hv _ (stops_moreItems (w :: vs) rest), htext]
      simp only [bind, Except.bind]
      rw [skipWs_cons_self (by decide)]
      dsimp only
      rw [if_neg (by decide), if_pos rfl, skipWs_pad hpad, skipWs_text hvs.1, ih]

theorem members_text {room : Nat} : ∀ (ms : List (Str × Json)) (k : Str) (v : Json) (d : Dict)
    (n : Nat) (rest : Str), ms.length < n → fits R room v = true →
    fitsMembers R room ms = true → ReadsText R pad room v →
    (∀ m ∈ ms, ReadsText R pad room m.2) → ((d ++ (k, v) :: ms).map Prod.fst).Nodup →
    members (raw_decode room) n d
        (quote k ++ ':'.toNat :: (pad ++ (text R pad v ++ (moreMembers R pad ms ++ rest)))) =
      .ok (d ++ (k, v) :: ms, rest)
  | _, _, _, _, 0, _, hn, _, _, _, _, _ => absurd hn (Nat.not_lt_zero _)
  | ms, k, v, d, n + 1, rest, hn, hfits, hms, hv, hall, hnd => by
      have hnew : k ∉ d.map Prod.fst := fun hmem => by
        rw [List.map_append, List.map_cons] at hnd
        exact (List.nodup_append.mp hnd).2.2 k hmem k List.mem_cons_self rfl
      have hquote : quote k ++ ':'.toNat :: (pad ++ (text R pad v ++ (moreMembers R pad ms ++ rest)))
          = '"'.toNat :: (escape k ++ '"'.toNat ::
            (':'.toNat :: (pad ++ (text R pad v ++ (moreMembers R pad ms ++ rest))))) := by
        simp [quote]
      rw [hquote, members, if_neg (by decide), scanString_escape]
      simp only [bind, Except.bind]
      rw [skipWs_cons_self (by decide)]
      dsimp only
      rw [if_neg (by decide), skipWs_pad hpad, skipWs_text hfits,
        hv _ (stops_moreMembers ms rest)]
      dsimp only
      cases ms with
      | nil =>
          have htext : moreMembers R pad [] ++ rest = '\x7d'.toNat :: rest := rfl
          rw [htext, skipWs_cons_self (by decide)]
          dsimp only
          rw [if_pos rfl, put_new k v d hnew]
      | cons m ms =>
          obtain ⟨k', v'⟩ := m
          rw [fitsMembers, Bool.and_eq_true] at hms
          have ih := members_text ms k' v' (d ++ [(k, v)]) n rest (Nat.lt_of_succ_lt_succ hn) hms.1
            hms.2 (hall (k', v') List.mem_cons_self)
            (fun m hm => hall m (List.mem_cons_of_mem _ hm)) (by
              rw [List.append_assoc]
              exact hnd)
          have htext : moreMembers R pad ((k', v') :: ms) ++ rest = ','.toNat :: (pad ++
              (quote k' ++ ':'.toNat :: (pad ++ (text R pad v' ++ (moreMembers R pad ms ++ rest))))) := by
            simp [moreMembers]
          have hskip : ∀ u, skipWs (quote k' ++ u) = quote k' ++ u :=
            fun u => skipWs_cons_self (by decide) _
          rw [htext, skipWs_cons_self (by decide)]
          dsimp only
          rw [if_neg (by decide), if_pos rfl, skipWs_pad hpad, hskip, put_new k v d hnew, ih,
            List.append_assoc]
          rfl

theorem reads_arr {room : Nat} {items : List Json} (hfits : fitsItems R room items = true)
    (hall : ∀ v ∈ items, ReadsText R pad room v) : ReadsText R pad (room + 1) (.arr items) := by
  intro rest _
  rw [raw_decode, valueStep.eq_def, text, List.cons_append]
  dsimp only
  rw [if_neg (by decide), if_neg (by decide), if_pos rfl, array]
  cases items with
  | nil =>
      have htext : textItems R pad [] ++ rest = ']'.toNat :: rest := rfl
      rw [htext, skipWs_cons_self (by decide)]
      rfl
  | cons v vs =>
      rw [fitsItems, Bool.and_eq_true] at hfits
      have htext : textItems R pad (v :: vs) ++ rest =
          text R pad v ++ (moreItems R pad vs ++ rest) := by
        simp [textItems]
      obtain ⟨c, u, hcu, hopens⟩ := @text_opens R pad _ _ hfits.1
      have hlen : vs.length < (u ++ (moreItems R pad vs ++ rest)).length + 1 := by
        have hmore := @length_le_moreItems R pad vs
        simp only [List.length_append]
        omega
      have helems := elements_text hpad vs v _ rest hlen hfits.1 hfits.2
        (hall v List.mem_cons_self) (fun w hw => hall w (List.mem_cons_of_mem _ hw))
      rw [htext, skipWs_text hfits.1]
      rw [hcu, List.cons_append] at helems ⊢
      dsimp only
      rw [if_neg hopens.2.1, helems]
      rfl

theorem reads_obj {room : Nat} {ms : List (Str × Json)} (hfits : fitsMembers R room ms = true)
    (hnd : (ms.map Prod.fst).Nodup) (hall : ∀ m ∈ ms, ReadsText R pad room m.2) :
    ReadsText R pad (room + 1) (.obj ms) := by
  intro rest _
  rw [raw_decode, valueStep.eq_def, text, List.cons_append]
  dsimp only
  rw [if_neg (by decide), if_pos rfl, object]
  cases ms with
  | nil =>
      have htext : textMembers R pad [] ++ rest = '\x7d'.toNat :: rest := rfl
      rw [htext, skipWs_cons_self (by decide)]
      rfl
  | cons m ms =>
      obtain ⟨k, v⟩ := m
      rw [fitsMembers, Bool.and_eq_true] at hfits
      have htext : textMembers R pad ((k, v) :: ms) ++ rest = quote k ++ ':'.toNat ::
          (pad ++ (text R pad v ++ (moreMembers R pad ms ++ rest))) := by
        simp [textMembers]
      have hquote : ∀ u, quote k ++ u = '"'.toNat :: (escape k ++ '"'.toNat :: u) := fun u => by
        simp [quote]
      have hlen : ms.length < (escape k ++ '"'.toNat :: ':'.toNat ::
          (pad ++ (text R pad v ++ (moreMembers R pad ms ++ rest)))).length + 1 := by
        have hmore := @length_le_moreMembers R pad ms
        simp only [List.length_append, List.length_cons]
        omega
      have hmembers := members_text hpad ms k v [] _ rest hlen hfits.1 hfits.2
        (hall (k, v) List.mem_cons_self) (fun m hm => hall m (List.mem_cons_of_mem _ hm)) hnd
      rw [htext]
      rw [hquote] at hmembers ⊢
      rw [skipWs_cons_self (by decide)]
      dsimp only
      rw [if_neg (by decide), hmembers]
      rfl

end

mutual

/-- What is written is read back, by induction on the value. -/
theorem reads_text (hpad : pad.all isWs = true) : ∀ (v : Json) (room : Nat), Held R v →
    fits R room v = true → ReadsText R pad room v
  | .null, room, _, _ => fun rest _ =>
      reads_literal room "null" .null _ _ rfl (by decide) (fun _ => rfl) rest
  | .bool true, room, _, _ => fun rest _ =>
      reads_literal room "true" (.bool true) _ _ rfl (by decide) (fun _ => rfl) rest
  | .bool false, room, _, _ => fun rest _ =>
      reads_literal room "false" (.bool false) _ _ rfl (by decide) (fun _ => rfl) rest
  | .num t, room, hheld, hfits => reads_num room (by cases room <;> exact hfits) hheld
  | .str x, room, _, _ => reads_str room x
  | .arr items, 0, _, hfits => nomatch hfits
  | .arr items, room + 1, hheld, hfits =>
      reads_arr hpad hfits (readsItems_text hpad items room hheld hfits)
  | .obj ms, 0, _, hfits => nomatch hfits
  | .obj ms, room + 1, hheld, hfits =>
      reads_obj hpad hfits hheld.1 (readsMembers_text hpad ms room hheld.2 hfits)

theorem readsItems_text (hpad : pad.all isWs = true) : ∀ (vs : List Json) (room : Nat),
    HeldItems R vs → fitsItems R room vs = true → ∀ v ∈ vs, ReadsText R pad room v
  | [], _, _, _ => nofun
  | v :: vs, room, hheld, hfits => by
      rw [fitsItems, Bool.and_eq_true] at hfits
      exact List.forall_mem_cons.mpr ⟨reads_text hpad v room hheld.1 hfits.1,
        readsItems_text hpad vs room hheld.2 hfits.2⟩

theorem readsMembers_text (hpad : pad.all isWs = true) : ∀ (ms : List (Str × Json)) (room : Nat),
    HeldMembers R ms → fitsMembers R room ms = true → ∀ m ∈ ms, ReadsText R pad room m.2
  | [], _, _, _ => nofun
  | (_, v) :: ms, room, hheld, hfits => by
      rw [fitsMembers, Bool.and_eq_true] at hfits
      exact List.forall_mem_cons.mpr ⟨reads_text hpad v room hheld.1 hfits.1,
        readsMembers_text hpad ms room hheld.2 hfits.2⟩

end

/-- Equal texts are of equal values. -/
theorem text_inj (hpad : pad.all isWs = true) {v w : Json} {room : Nat} (hv : Held R v)
    (hw : Held R w) (hvfits : fits R room v = true) (hwfits : fits R room w = true)
    (h : text R pad v = text R pad w) : v = w := by
  have hreadv := reads_text hpad v room hv hvfits [] stops_nil
  have hreadw := reads_text hpad w room hw hwfits [] stops_nil
  rw [h, hreadw] at hreadv
  cases hreadv
  rfl

/-- An object is read back from a line of its own. -/
theorem loads_obj (hpad : pad.all isWs = true) {ms : List (Str × Json)} {room : Nat}
    (hheld : Held R (.obj ms)) (hfits : fits R room (.obj ms) = true) {tail : Str}
    (htail : tail.all isWs = true) : loads room (text R pad (.obj ms) ++ tail) = .ok (.obj ms) := by
  have hstops : Stops tail := by
    intro c r hcr
    rw [hcr, List.all_cons, Bool.and_eq_true] at htail
    rw [isDelimiter, htail.1]
    rfl
  have hread := reads_text hpad _ room hheld hfits tail hstops
  have hskip : skipWs tail = [] := by
    have h := skipWs_pad htail []
    rwa [List.append_nil] at h
  have hmark : ¬ (some '\x7b'.toNat = some 0xfeff) := by decide
  rw [loads, text, List.cons_append, List.head?_cons, if_neg hmark, skipWs_cons_self (by decide)]
  rw [text, List.cons_append] at hread
  rw [hread]
  simp only [bind, Except.bind]
  rw [if_pos hskip]

/-! ## What texts are made of -/

theorem mem_escapeChar {c d : Nat} (h : d ∈ escapeChar c) :
    d = c ∧ 0x20 ≤ c ∨ 0x20 ≤ d ∧ d < 0x7f := by
  rw [escapeChar] at h
  cases hshort : shortChar c with
  | some e =>
      rw [hshort] at h
      have he : 0x20 ≤ e ∧ e < 0x7f := by
        rw [shortChar] at hshort
        split_ifs at hshort with h1 <;> obtain rfl := Option.some.inj hshort
        · rcases h1 with rfl | rfl <;> decide
        all_goals decide
      rcases List.mem_cons.mp h with rfl | h
      · exact .inr (by decide)
      · rw [List.mem_singleton.mp h]
        exact .inr he
  | none =>
      rw [hshort] at h
      dsimp only at h
      split_ifs at h with hlow
      · have hhex : ∀ n < 16, 0x20 ≤ hexDigit n ∧ hexDigit n < 0x7f := by decide
        have hdiv : c / 16 < 16 := by omega
        have hmod : c % 16 < 16 := Nat.mod_lt _ (by decide)
        simp only [List.mem_cons, List.not_mem_nil, or_false] at h
        refine .inr ?_
        rcases h with rfl | rfl | rfl | rfl | rfl | rfl
        · decide
        · decide
        · decide
        · decide
        · exact hhex _ hdiv
        · exact hhex _ hmod
      · rw [List.mem_singleton.mp h]
        exact .inl ⟨rfl, Nat.not_lt.mp hlow⟩

/-- `Q` holds of what an encoder writes for strings of characters that are `P`. -/
structure Written (P Q : Nat → Prop) (pad : Str) : Prop where
  plain : ∀ c, 0x20 ≤ c → c < 0x7f → Q c
  kept : ∀ c, 0x20 ≤ c → P c → Q c
  pad : ∀ c ∈ pad, Q c

section

variable {P Q : Nat → Prop}

theorem quote_spelled (hQ : Written P Q pad) {s : Str} (h : ∀ c ∈ s, P c) : ∀ c ∈ quote s, Q c := by
  have hquote : Q '"'.toNat := hQ.plain _ (by decide) (by decide)
  intro d hd
  rw [quote, List.mem_append, List.mem_cons, List.mem_singleton] at hd
  rcases hd with (rfl | hd) | rfl
  · exact hquote
  · obtain ⟨c, hc, hdc⟩ := List.mem_flatMap.mp hd
    rcases mem_escapeChar hdc with ⟨rfl, hlow⟩ | hd
    · exact hQ.kept _ hlow (h _ hc)
    · exact hQ.plain _ hd.1 hd.2
  · exact hquote

mutual

/-- A text is of its strings' characters, of printable ones and of blanks. -/
theorem text_spelled (hQ : Written P Q pad) : ∀ (v : Json) (room : Nat), fits R room v = true →
    Spelled P v → ∀ c ∈ text R pad v, Q c
  | .null, _, _, _ => fun c hc => by
      have hin : ∀ c ∈ Str.of "null", 0x20 ≤ c ∧ c < 0x7f := by decide
      exact hQ.plain c (hin c hc).1 (hin c hc).2
  | .bool true, _, _, _ => fun c hc => by
      have hin : ∀ c ∈ Str.of "true", 0x20 ≤ c ∧ c < 0x7f := by decide
      exact hQ.plain c (hin c hc).1 (hin c hc).2
  | .bool false, _, _, _ => fun c hc => by
      have hin : ∀ c ∈ Str.of "false", 0x20 ≤ c ∧ c < 0x7f := by decide
      exact hQ.plain c (hin c hc).1 (hin c hc).2
  | .num t, room, hfits, _ => fun c hc => by
      have hin := R.plain t (by cases room <;> exact hfits) c hc
      exact hQ.plain c hin.1.le hin.2
  | .str s, _, _, h => quote_spelled hQ h
  | .arr _, 0, hfits, _ => nomatch hfits
  | .arr [], room + 1, _, _ => fun c hc => by
      have hin : ∀ c ∈ Str.of "[]", 0x20 ≤ c ∧ c < 0x7f := by decide
      exact hQ.plain c (hin c hc).1 (hin c hc).2
  | .arr (v :: vs), room + 1, hfits, h => fun c hc => by
      rw [fits, fitsItems, Bool.and_eq_true] at hfits
      rw [text, textItems, List.mem_cons, List.mem_append] at hc
      rcases hc with rfl | hc | hc
      · exact hQ.plain _ (by decide) (by decide)
      · exact text_spelled hQ v room hfits.1 h.1 c hc
      · exact moreItems_spelled hQ vs room hfits.2 h.2 c hc
  | .obj _, 0, hfits, _ => nomatch hfits
  | .obj [], room + 1, _, _ => fun c hc => by
      have hin : ∀ c ∈ Str.of "\x7b\x7d", 0x20 ≤ c ∧ c < 0x7f := by decide
      exact hQ.plain c (hin c hc).1 (hin c hc).2
  | .obj ((k, v) :: ms), room + 1, hfits, h => fun c hc => by
      rw [fits, fitsMembers, Bool.and_eq_true] at hfits
      simp only [text, textMembers, List.cons_append, List.append_assoc, List.mem_cons,
        List.mem_append] at hc
      rcases hc with rfl | hc | rfl | hc | hc | hc
      · exact hQ.plain _ (by decide) (by decide)
      · exact quote_spelled hQ h.1 c hc
      · exact hQ.plain _ (by decide) (by decide)
      · exact hQ.pad c hc
      · exact text_spelled hQ v room hfits.1 h.2.1 c hc
      · exact moreMembers_spelled hQ ms room hfits.2 h.2.2 c hc

theorem moreItems_spelled (hQ : Written P Q pad) : ∀ (vs : List Json) (room : Nat),
    fitsItems R room vs = true → SpelledItems P vs → ∀ c ∈ moreItems R pad vs, Q c
  | [], _, _, _ => fun c hc => by
      rw [List.mem_singleton.mp hc]
      exact hQ.plain _ (by decide) (by decide)
  | v :: vs, room, hfits, h => fun c hc => by
      rw [fitsItems, Bool.and_eq_true] at hfits
      simp only [moreItems, List.cons_append, List.append_assoc, List.mem_cons,
        List.mem_append] at hc
      rcases hc with rfl | hc | hc | hc
      · exact hQ.plain _ (by decide) (by decide)
      · exact hQ.pad c hc
      · exact text_spelled hQ v room hfits.1 h.1 c hc
      · exact moreItems_spelled hQ vs room hfits.2 h.2 c hc

theorem moreMembers_spelled (hQ : Written P Q pad) : ∀ (ms : List (Str × Json)) (room : Nat),
    fitsMembers R room ms = true → SpelledMembers P ms → ∀ c ∈ moreMembers R pad ms, Q c
  | [], _, _, _ => fun c hc => by
      rw [List.mem_singleton.mp hc]
      exact hQ.plain _ (by decide) (by decide)
  | (k, v) :: ms, room, hfits, h => fun c hc => by
      rw [fitsMembers, Bool.and_eq_true] at hfits
      simp only [moreMembers, List.cons_append, List.append_assoc, List.mem_cons,
        List.mem_append] at hc
      rcases hc with rfl | hc | hc | rfl | hc | hc | hc
      · exact hQ.plain _ (by decide) (by decide)
      · exact hQ.pad c hc
      · exact quote_spelled hQ h.1 c hc
      · exact hQ.plain _ (by decide) (by decide)
      · exact hQ.pad c hc
      · exact text_spelled hQ v room hfits.1 h.2.1 c hc
      · exact moreMembers_spelled hQ ms room hfits.2 h.2.2 c hc

end

end

/-! ## Values in memory -/

mutual

theorem held_eq : ∀ v : Json, Held R v → held R v = v
  | .null, _ => rfl
  | .bool _, _ => rfl
  | .num _, h => congrArg Json.num h
  | .str _, _ => rfl
  | .arr items, h => congrArg Json.arr (heldItems_eq items h)
  | .obj ms, h => congrArg Json.obj (heldMembers_eq ms h.2)

theorem heldItems_eq : ∀ vs : List Json, HeldItems R vs → heldItems R vs = vs
  | [], _ => rfl
  | v :: vs, h => by rw [heldItems, held_eq v h.1, heldItems_eq vs h.2]

theorem heldMembers_eq : ∀ ms : List (Str × Json), HeldMembers R ms → heldMembers R ms = ms
  | [], _ => rfl
  | (_, v) :: ms, h => by rw [heldMembers, held_eq v h.1, heldMembers_eq ms h.2]

end

/-! ## Values in order -/

theorem heldMembers_iff {ms : List (Str × Json)} : HeldMembers R ms ↔ ∀ m ∈ ms, Held R m.2 := by
  induction ms with
  | nil => exact ⟨fun _ => nofun, fun _ => trivial⟩
  | cons m ms ih =>
      rw [List.forall_mem_cons, ← ih]
      rfl

theorem fitsMembers_iff {room : Nat} {ms : List (Str × Json)} :
    fitsMembers R room ms = true ↔ ∀ m ∈ ms, fits R room m.2 = true := by
  induction ms with
  | nil => exact ⟨fun _ => nofun, fun _ => rfl⟩
  | cons m ms ih => rw [List.forall_mem_cons, ← ih, fitsMembers, Bool.and_eq_true]

theorem sortedMembers_eq (ms : List (Str × Json)) :
    sortedMembers ms = ms.map (fun m => (m.1, sorted m.2)) := by
  induction ms with
  | nil => rfl
  | cons m ms ih => rw [sortedMembers, ih, List.map_cons]

/-- The members of an object in order are the members, each in order. -/
theorem perm_sortedMembers (ms : List (Str × Json)) :
    ((sortedMembers ms).mergeSort (fun a b => decide (a.1 ≤ b.1))).Perm
      (ms.map (fun m => (m.1, sorted m.2))) := by
  rw [← sortedMembers_eq]
  exact List.mergeSort_perm _ _

theorem held_sortedObj {ms : List (Str × Json)} (hnd : (ms.map Prod.fst).Nodup)
    (h : HeldMembers R (sortedMembers ms)) : Held R (sorted (.obj ms)) := by
  have hperm := perm_sortedMembers ms
  refine ⟨?_, ?_⟩
  · rw [(hperm.map Prod.fst).nodup_iff, List.map_map]
    exact hnd
  · rw [heldMembers_iff, sortedMembers_eq] at h
    rw [heldMembers_iff]
    exact fun m hm => h m (hperm.mem_iff.mp hm)

theorem fits_sortedObj {room : Nat} {ms : List (Str × Json)}
    (h : fitsMembers R room (sortedMembers ms) = true) :
    fits R (room + 1) (sorted (.obj ms)) = true := by
  have hperm := perm_sortedMembers ms
  rw [fitsMembers_iff, sortedMembers_eq] at h
  rw [sorted, fits, fitsMembers_iff]
  exact fun m hm => h m (hperm.mem_iff.mp hm)

mutual

theorem held_sorted : ∀ v : Json, Held R v → Held R (sorted v)
  | .null, _ => trivial
  | .bool _, _ => trivial
  | .num _, h => h
  | .str _, _ => trivial
  | .arr items, h => heldItems_sorted items h
  | .obj ms, h => held_sortedObj h.1 (heldMembers_sorted ms h.2)

theorem heldItems_sorted : ∀ vs : List Json, HeldItems R vs → HeldItems R (sortedItems vs)
  | [], _ => trivial
  | v :: vs, h => ⟨held_sorted v h.1, heldItems_sorted vs h.2⟩

theorem heldMembers_sorted : ∀ ms : List (Str × Json), HeldMembers R ms →
    HeldMembers R (sortedMembers ms)
  | [], _ => trivial
  | (_, v) :: ms, h => ⟨held_sorted v h.1, heldMembers_sorted ms h.2⟩

end

mutual

theorem fits_sorted : ∀ (v : Json) (room : Nat), fits R room v = true →
    fits R room (sorted v) = true
  | .null, _, h => h
  | .bool _, _, h => h
  | .num _, _, h => h
  | .str _, _, h => h
  | .arr _, 0, h => nomatch h
  | .arr items, room + 1, h => fitsItems_sorted items room h
  | .obj _, 0, h => nomatch h
  | .obj ms, room + 1, h => fits_sortedObj (fitsMembers_sorted ms room h)

theorem fitsItems_sorted : ∀ (vs : List Json) (room : Nat), fitsItems R room vs = true →
    fitsItems R room (sortedItems vs) = true
  | [], _, _ => rfl
  | v :: vs, room, h => by
      rw [fitsItems, Bool.and_eq_true] at h
      rw [sortedItems, fitsItems, Bool.and_eq_true]
      exact ⟨fits_sorted v room h.1, fitsItems_sorted vs room h.2⟩

theorem fitsMembers_sorted : ∀ (ms : List (Str × Json)) (room : Nat),
    fitsMembers R room ms = true → fitsMembers R room (sortedMembers ms) = true
  | [], _, _ => rfl
  | (_, v) :: ms, room, h => by
      rw [fitsMembers, Bool.and_eq_true] at h
      rw [sortedMembers, fitsMembers, Bool.and_eq_true]
      exact ⟨fits_sorted v room h.1, fitsMembers_sorted ms room h.2⟩

end

section

variable {P : Nat → Prop}

theorem spelledMembers_iff {ms : List (Str × Json)} :
    SpelledMembers P ms ↔ ∀ m ∈ ms, (∀ c ∈ m.1, P c) ∧ Spelled P m.2 := by
  induction ms with
  | nil => exact ⟨fun _ => nofun, fun _ => trivial⟩
  | cons m ms ih => rw [List.forall_mem_cons, ← ih, SpelledMembers, and_assoc]

theorem spelled_sortedObj {ms : List (Str × Json)} (h : SpelledMembers P (sortedMembers ms)) :
    Spelled P (sorted (.obj ms)) := by
  rw [spelledMembers_iff, sortedMembers_eq] at h
  rw [sorted, Spelled, spelledMembers_iff]
  exact fun m hm => h m ((perm_sortedMembers ms).mem_iff.mp hm)

mutual

theorem spelled_sorted : ∀ v : Json, Spelled P v → Spelled P (sorted v)
  | .null, _ => trivial
  | .bool _, _ => trivial
  | .num _, _ => trivial
  | .str _, h => h
  | .arr items, h => spelledItems_sorted items h
  | .obj ms, h => spelled_sortedObj (spelledMembers_sorted ms h)

theorem spelledItems_sorted : ∀ vs : List Json, SpelledItems P vs →
    SpelledItems P (sortedItems vs)
  | [], _ => trivial
  | v :: vs, h => ⟨spelled_sorted v h.1, spelledItems_sorted vs h.2⟩

theorem spelledMembers_sorted : ∀ ms : List (Str × Json), SpelledMembers P ms →
    SpelledMembers P (sortedMembers ms)
  | [], _ => trivial
  | (_, v) :: ms, h => ⟨h.1, spelled_sorted v h.2.1, spelledMembers_sorted ms h.2.2⟩

end

end

/-- Equal sorted texts are of values that agree up to the order of members. -/
theorem sorted_eq_of_text (hpad : pad.all isWs = true) {v w : Json} {room : Nat} (hv : Held R v)
    (hw : Held R w) (hvfits : fits R room (sorted v) = true)
    (hwfits : fits R room (sorted w) = true)
    (h : text R pad (sorted v) = text R pad (sorted w)) : sorted v = sorted w :=
  text_inj hpad (held_sorted v hv) (held_sorted w hw) hvfits hwfits h

/-- Objects that agree up to the order of members agree on each member. -/
theorem sorted_member {ms ms' : List (Str × Json)} (h : sorted (.obj ms) = sorted (.obj ms'))
    {m : Str × Json} (hm : m ∈ ms) : ∃ m' ∈ ms', m'.1 = m.1 ∧ sorted m'.2 = sorted m.2 := by
  have heq := Json.obj.inj h
  have hmem : (m.1, sorted m.2) ∈ ms.map (fun m => (m.1, sorted m.2)) := List.mem_map_of_mem hm
  have hmem' : (m.1, sorted m.2) ∈ ms'.map (fun m => (m.1, sorted m.2)) := by
    rw [← (perm_sortedMembers ms').mem_iff, ← heq, (perm_sortedMembers ms).mem_iff]
    exact hmem
  obtain ⟨m', hm', heq'⟩ := List.mem_map.mp hmem'
  exact ⟨m', hm', (Prod.mk.inj heq').1, (Prod.mk.inj heq').2⟩

end

end Secdogie.Json
