/-
# `Secdogie.Lib.Json` — JSON texts, as Python's decoder reads them

The decoder is a recursive descent that returns the value it read and the text
it left.  It goes as deep as the stack has room, and then raises; its three
ways to fail are kept apart, because callers catch only some of them.

Texts are lists of code points: a Python string may hold a lone surrogate.
-/
import Mathlib

namespace Secdogie

/-- A text, by its code points. -/
abbrev Str := List Nat

/-- A literal. -/
def Str.of (s : String) : Str := s.toList.map Char.toNat

inductive Json where
  | null
  | bool (b : Bool)
  /-- a number, or `NaN`, `Infinity` and `-Infinity`, as it is written -/
  | num (token : Str)
  | str (s : Str)
  | arr (items : List Json)
  | obj (members : List (Str × Json))

namespace Json

/-- How decoding fails. -/
inductive Failure where
  /-- `JSONDecodeError` -/
  | malformed
  /-- `ValueError`, of an integer with too many digits -/
  | tooLong
  /-- `RecursionError` -/
  | tooDeep
deriving DecidableEq

abbrev Scan (α : Type) := Except Failure (α × Str)

def INT_MAX_STR_DIGITS : Nat := 4300

/-! ## Dictionaries -/

abbrev Dict := List (Str × Json)

/-- `d[k] = v`: a key stays where it is. -/
def put (k : Str) (v : Json) : Dict → Dict
  | [] => [(k, v)]
  | m :: d => if m.1 = k then (k, v) :: d else m :: put k v d

/-- `d.get(k)` -/
def get (d : Dict) (k : Str) : Option Json := (d.find? (fun m => decide (m.1 = k))).map Prod.snd

/-! ## The decoder -/

def isWs (c : Nat) : Bool := c = 0x20 || c = 0x09 || c = 0x0a || c = 0x0d

def skipWs (s : Str) : Str := s.dropWhile isWs

def isDigit (c : Nat) : Bool := '0'.toNat ≤ c && c ≤ '9'.toNat

def hexVal (c : Nat) : Option Nat :=
  if isDigit c then some (c - '0'.toNat)
  else if 'a'.toNat ≤ c ∧ c ≤ 'f'.toNat then some (c - 'a'.toNat + 10)
  else if 'A'.toNat ≤ c ∧ c ≤ 'F'.toNat then some (c - 'A'.toNat + 10)
  else none

def hex4 (a b c d : Nat) : Option Nat := do
  let a ← hexVal a
  let b ← hexVal b
  let c ← hexVal c
  let d ← hexVal d
  some (((a * 16 + b) * 16 + c) * 16 + d)

/-- What the character after a backslash stands for, `u` apart. -/
def shortEscape (c : Nat) : Option Nat :=
  if c = '"'.toNat ∨ c = '\\'.toNat ∨ c = '/'.toNat then some c
  else if c = 'b'.toNat then some 0x08
  else if c = 'f'.toNat then some 0x0c
  else if c = 'n'.toNat then some 0x0a
  else if c = 'r'.toNat then some 0x0d
  else if c = 't'.toNat then some 0x09
  else none

/-- The rest of a string, up to its closing quote: its characters, and whether
each was written as a `\u` escape. -/
def scanChars : Str → Scan (List (Bool × Nat))
  | [] => .error .malformed
  | c :: s =>
      if c = '"'.toNat then .ok ([], s)
      else if c = '\\'.toNat then
        match s with
        | [] => .error .malformed
        | e :: s =>
            if e = 'u'.toNat then
              match s with
              | a :: b :: c :: d :: s =>
                  match hex4 a b c d with
                  | none => .error .malformed
                  | some u => (scanChars s).map (fun r => ((true, u) :: r.1, r.2))
              | _ => .error .malformed
            else
              match shortEscape e with
              | none => .error .malformed
              | some x => (scanChars s).map (fun r => ((false, x) :: r.1, r.2))
      else if c < 0x20 then .error .malformed
      else (scanChars s).map (fun r => ((false, c) :: r.1, r.2))

/-- An escaped high surrogate and an escaped low one after it are one character. -/
def joinSurrogates : List (Bool × Nat) → Str
  | [] => []
  | [x] => [x.2]
  | x :: y :: l =>
      if x.1 ∧ y.1 ∧ 0xd800 ≤ x.2 ∧ x.2 < 0xdc00 ∧ 0xdc00 ≤ y.2 ∧ y.2 < 0xe000 then
        (0x10000 + (x.2 - 0xd800) * 0x400 + (y.2 - 0xdc00)) :: joinSurrogates l
      else x.2 :: joinSurrogates (y :: l)

def scanString (s : Str) : Scan Str := (scanChars s).map (fun r => (joinSurrogates r.1, r.2))

def digits (s : Str) : Str := s.takeWhile isDigit

/-- The fraction that comes next, if one does. -/
def fraction : Str → Str
  | [] => []
  | c :: s => if c = '.'.toNat ∧ digits s ≠ [] then c :: digits s else []

def sign : Str → Str
  | [] => []
  | c :: _ => if c = '+'.toNat ∨ c = '-'.toNat then [c] else []

/-- The exponent that comes next, if one does. -/
def exponent : Str → Str
  | [] => []
  | c :: s =>
      if (c = 'e'.toNat ∨ c = 'E'.toNat) ∧ digits (s.drop (sign s).length) ≠ [] then
        c :: (sign s ++ digits (s.drop (sign s).length))
      else []

/-- A zero, or digits that do not start with one. -/
def integer : Str → Str
  | [] => []
  | c :: s => if c = '0'.toNat then [c] else digits (c :: s)

def minus : Str → Str
  | [] => []
  | c :: _ => if c = '-'.toNat then [c] else []

def number (s : Str) : Scan Json :=
  let neg := minus s
  let s := s.drop neg.length
  let int := integer s
  let s := s.drop int.length
  let frac := fraction s
  let s := s.drop frac.length
  let exp := exponent s
  if int = [] then .error .malformed
  else if frac = [] ∧ exp = [] ∧ INT_MAX_STR_DIGITS < int.length then .error .tooLong
  else .ok (.num (neg ++ int ++ frac ++ exp), s.drop exp.length)

def literal (l : Str) (v : Json) (s : Str) : Scan Json :=
  if l.isPrefixOf s then .ok (v, s.drop l.length) else .error .malformed

/-- A value that is neither a string nor a container. -/
def scalar : Str → Scan Json
  | [] => .error .malformed
  | c :: s =>
      if c = 'n'.toNat then literal (.of "null") .null (c :: s)
      else if c = 't'.toNat then literal (.of "true") (.bool true) (c :: s)
      else if c = 'f'.toNat then literal (.of "false") (.bool false) (c :: s)
      else if c = 'N'.toNat then literal (.of "NaN") (.num (.of "NaN")) (c :: s)
      else if c = 'I'.toNat then literal (.of "Infinity") (.num (.of "Infinity")) (c :: s)
      else if (Str.of "-Infinity").isPrefixOf (c :: s) then
        literal (.of "-Infinity") (.num (.of "-Infinity")) (c :: s)
      else number (c :: s)

/-- The items of a list, from the one that comes next. -/
def elements (val : Str → Scan Json) : Nat → Str → Except Failure (List Json × Str)
  | 0, _ => .error .malformed
  | n + 1, s => do
      let (v, s) ← val s
      match skipWs s with
      | [] => .error .malformed
      | c :: s =>
          if c = ']'.toNat then .ok ([v], s)
          else if c = ','.toNat then do
            let (vs, s) ← elements val n (skipWs s)
            .ok (v :: vs, s)
          else .error .malformed

/-- The members of an object after those in `d`, from the one that comes next. -/
def members (val : Str → Scan Json) : Nat → Dict → Str → Except Failure (Dict × Str)
  | 0, _, _ => .error .malformed
  | _ + 1, _, [] => .error .malformed
  | n + 1, d, c :: s =>
      if c ≠ '"'.toNat then .error .malformed
      else do
        let (k, s) ← scanString s
        match skipWs s with
        | [] => .error .malformed
        | c :: s =>
            if c ≠ ':'.toNat then .error .malformed
            else do
              let (v, s) ← val (skipWs s)
              match skipWs s with
              | [] => .error .malformed
              | c :: s =>
                  if c = '\x7d'.toNat then .ok (put k v d, s)
                  else if c = ','.toNat then members val n (put k v d) (skipWs s)
                  else .error .malformed

/-- A list, after its opening bracket. -/
def array (val : Str → Scan Json) (s : Str) : Scan Json :=
  match skipWs s with
  | [] => .error .malformed
  | c :: s =>
      if c = ']'.toNat then .ok (.arr [], s)
      else (elements val (s.length + 1) (c :: s)).map (fun r => (.arr r.1, r.2))

/-- An object, after its opening brace. -/
def object (val : Str → Scan Json) (s : Str) : Scan Json :=
  match skipWs s with
  | [] => .error .malformed
  | c :: s =>
      if c = '\x7d'.toNat then .ok (.obj [], s)
      else (members val (s.length + 1) [] (c :: s)).map (fun r => (.obj r.1, r.2))

/-- One value.  `nested` reads the values inside a container; it is `none`
when the stack has no room for them. -/
def valueStep (nested : Option (Str → Scan Json)) : Str → Scan Json
  | [] => .error .malformed
  | c :: s =>
      if c = '"'.toNat then (scanString s).map (fun r => (.str r.1, r.2))
      else if c = '\x7b'.toNat then
        match nested with
        | none => .error .tooDeep
        | some val => object val s
      else if c = '['.toNat then
        match nested with
        | none => .error .tooDeep
        | some val => array val s
      else scalar (c :: s)

/-- `raw_decode`, where the stack has room for so many containers in one
another. -/
def raw_decode : Nat → Str → Scan Json
  | 0 => valueStep none
  | room + 1 => valueStep (some (raw_decode room))

/-- `json.loads` -/
def loads (room : Nat) (s : Str) : Except Failure Json :=
  if s.head? = some 0xfeff then .error .malformed
  else do
    let (v, rest) ← raw_decode room (skipWs s)
    if skipWs rest = [] then .ok v else .error .malformed

/-! ## What is read is a prefix -/

theorem bind_ok {α β : Type} {x : Except Failure α} {f : α → Except Failure β} {b : β}
    (h : (x >>= f) = .ok b) : ∃ a, x = .ok a ∧ f a = .ok b := by
  cases x with
  | error e => cases h
  | ok a => exact ⟨a, rfl, h⟩

theorem map_ok {α β : Type} {x : Except Failure α} {f : α → β} {b : β}
    (h : x.map f = .ok b) : ∃ a, x = .ok a ∧ f a = b := by
  cases x with
  | error e => cases h
  | ok a => exact ⟨a, rfl, Except.ok.inj h⟩

mutual

/-- There is no object in it. -/
def bare : Json → Bool
  | .arr items => bareItems items
  | .obj _ => false
  | _ => true

def bareItems : List Json → Bool
  | [] => true
  | v :: vs => bare v && bareItems vs

end

/-- `rest` is what is left of `s`, and `P` holds if no brace was opened in
what was read. -/
def Left (P : Prop) (s rest : Str) : Prop := ∃ u, s = u ++ rest ∧ ('\x7b'.toNat ∉ u → P)

theorem Left.trans {P Q : Prop} {s s' s'' : Str} (h : Left P s s') (h' : Left Q s' s'') :
    Left (P ∧ Q) s s'' := by
  obtain ⟨u, rfl, hu⟩ := h
  obtain ⟨u', rfl, hu'⟩ := h'
  refine ⟨u ++ u', (List.append_assoc _ _ _).symm, fun hno => ⟨hu ?_, hu' ?_⟩⟩
  · exact fun hmem => hno (List.mem_append_left _ hmem)
  · exact fun hmem => hno (List.mem_append_right _ hmem)

theorem Left.imp {P Q : Prop} {s rest : Str} (h : Left P s rest) (himp : P → Q) :
    Left Q s rest := by
  obtain ⟨u, hu, hp⟩ := h
  exact ⟨u, hu, fun hno => himp (hp hno)⟩

theorem Left.cons {P : Prop} {s rest : Str} (c : Nat) (h : Left P s rest) :
    Left P (c :: s) rest := by
  obtain ⟨u, rfl, hp⟩ := h
  exact ⟨c :: u, rfl, fun hno => hp (fun hmem => hno (List.mem_cons_of_mem _ hmem))⟩

theorem Left.refl {P : Prop} (s : Str) (h : P) : Left P s s := ⟨[], rfl, fun _ => h⟩

theorem Left.of_drop {P : Prop} (s : Str) (n : Nat) (h : P) : Left P s (s.drop n) :=
  ⟨s.take n, (List.take_append_drop n s).symm, fun _ => h⟩

theorem left_skipWs (s : Str) : Left True s (skipWs s) :=
  ⟨s.takeWhile isWs, List.takeWhile_append_dropWhile.symm, fun _ => trivial⟩

/-- A string ends here, or goes on after a character, whatever comes then. -/
theorem scanChars_cases {s rest : Str} {x : List (Bool × Nat)} (h : scanChars s = .ok (x, rest)) :
    (s = '"'.toNat :: rest ∧ x = []) ∨ ∃ p s' y x', s = p ++ s' ∧ p ≠ [] ∧
      scanChars s' = .ok (x', rest) ∧ x = y :: x' ∧
        ∀ z, scanChars (p ++ z) = (scanChars z).map (fun r => (y :: r.1, r.2)) := by
  cases s with
  | nil => cases h
  | cons c s =>
      rw [scanChars.eq_def] at h
      dsimp only at h
      split_ifs at h with hq hb hctl
      · cases h
        exact .inl ⟨by rw [hq], rfl⟩
      · cases s with
        | nil => cases h
        | cons e s =>
            dsimp only at h
            split_ifs at h with hu
            · split at h
              · next a b c' d s =>
                  cases hhex : hex4 a b c' d with
                  | none =>
                      rw [hhex] at h
                      cases h
                  | some u =>
                      rw [hhex] at h
                      obtain ⟨r, hr, heq⟩ := map_ok h
                      cases heq
                      refine .inr ⟨[c, e, a, b, c', d], s, (true, u), r.1, rfl, List.cons_ne_nil _ _,
                        hr, rfl, fun z => ?_⟩
                      change scanChars (c :: e :: a :: b :: c' :: d :: z) = _
                      rw [scanChars.eq_def]
                      dsimp only
                      rw [if_neg hq, if_pos hb, if_pos hu, hhex]
              · cases h
            · cases hshort : shortEscape e with
              | none =>
                  rw [hshort] at h
                  cases h
              | some u =>
                  rw [hshort] at h
                  obtain ⟨r, hr, heq⟩ := map_ok h
                  cases heq
                  refine .inr ⟨[c, e], s, (false, u), r.1, rfl, List.cons_ne_nil _ _, hr, rfl,
                    fun z => ?_⟩
                  change scanChars (c :: e :: z) = _
                  rw [scanChars.eq_def]
                  dsimp only
                  rw [if_neg hq, if_pos hb, if_neg hu, hshort]
      · obtain ⟨r, hr, heq⟩ := map_ok h
        cases heq
        refine .inr ⟨[c], s, (false, c), r.1, rfl, List.cons_ne_nil _ _, hr, rfl, fun z => ?_⟩
        change scanChars (c :: z) = _
        rw [scanChars.eq_def]
        dsimp only
        rw [if_neg hq, if_neg hb, if_neg hctl]

theorem scanChars_spec {s rest : Str} {x : List (Bool × Nat)} (h : scanChars s = .ok (x, rest)) :
    Left True s rest ∧ ∀ z, scanChars (s ++ z) = .ok (x, rest ++ z) := by
  induction hlen : s.length using Nat.strong_induction_on generalizing s x with
  | _ n ih =>
      rcases scanChars_cases h with ⟨rfl, rfl⟩ | ⟨p, s', y, x', rfl, hp, hs', rfl, hp'⟩
      · refine ⟨(Left.refl _ trivial).cons _, fun z => ?_⟩
        rw [List.cons_append, scanChars.eq_def]
        rfl
      · have hlt : s'.length < n := by
          rw [← hlen, List.length_append]
          exact Nat.lt_add_of_pos_left (List.length_pos_iff.mpr hp)
        obtain ⟨hleft, happend⟩ := ih _ hlt hs' rfl
        refine ⟨?_, fun z => ?_⟩
        · obtain ⟨u, rfl, -⟩ := hleft
          exact ⟨p ++ u, (List.append_assoc _ _ _).symm, fun _ => trivial⟩
        · rw [List.append_assoc, hp', happend]
          rfl

/-! ## What comes after does not matter

Of a number this is so when something comes that cannot go on with it. -/

/-- No number goes on with it. -/
def isDelimiter (c : Nat) : Bool :=
  isWs c || c = ','.toNat || c = ']'.toNat || c = '\x7d'.toNat

/-- There is a delimiter somewhere. -/
def Barred (s : Str) : Prop := ∃ c ∈ s, isDelimiter c = true

theorem Barred.of_drop {s : Str} {n : Nat} (h : Barred (s.drop n)) :
    Barred s ∧ ∀ z, (s ++ z).drop n = s.drop n ++ z := by
  obtain ⟨c, hc, hd⟩ := h
  refine ⟨⟨c, List.mem_of_mem_drop hc, hd⟩, fun z => List.drop_append_of_le_length ?_⟩
  by_contra hlen
  rw [List.drop_eq_nil_of_le (by omega)] at hc
  cases hc

/-- What a number may go on with. -/
theorem not_isDelimiter {c : Nat} (h : isDigit c = true ∨ c = '.'.toNat ∨ c = 'e'.toNat ∨
    c = 'E'.toNat ∨ c = '+'.toNat ∨ c = '-'.toNat) : isDelimiter c = false := by
  rcases h with h | rfl | rfl | rfl | rfl | rfl
  · simp [isDigit] at h
    simp [isDelimiter, isWs]
    omega
  all_goals rfl

theorem Barred.tail {c : Nat} {s : Str} (h : Barred (c :: s)) (hc : isDelimiter c = false) :
    Barred s := by
  obtain ⟨d, hd, hdel⟩ := h
  rcases List.mem_cons.mp hd with rfl | hd
  · rw [hc] at hdel
    cases hdel
  · exact ⟨d, hd, hdel⟩

theorem digits_append {s : Str} (h : Barred s) (z : Str) : digits (s ++ z) = digits s := by
  induction s with
  | nil =>
      obtain ⟨c, hc, -⟩ := h
      cases hc
  | cons c s ih =>
      rw [digits, digits, List.cons_append, List.takeWhile_cons, List.takeWhile_cons]
      cases hc : isDigit c with
      | false => rfl
      | true =>
          have htail := ih (h.tail (not_isDelimiter (.inl hc)))
          rw [digits, digits] at htail
          rw [if_pos rfl, if_pos rfl, htail]

theorem fraction_append {s : Str} (h : Barred s) (z : Str) : fraction (s ++ z) = fraction s := by
  cases s with
  | nil =>
      obtain ⟨c, hc, -⟩ := h
      cases hc
  | cons c s =>
      rw [List.cons_append, fraction, fraction]
      by_cases hc : c = '.'.toNat
      · rw [digits_append (h.tail (not_isDelimiter (.inr (.inl hc)))) z]
      · rw [if_neg (fun h => hc h.1), if_neg (fun h => hc h.1)]

theorem sign_append {s : Str} (h : s ≠ []) (z : Str) : sign (s ++ z) = sign s := by
  cases s with
  | nil => exact absurd rfl h
  | cons c s => rfl

theorem exponent_append {s : Str} (h : Barred s) (z : Str) : exponent (s ++ z) = exponent s := by
  cases s with
  | nil =>
      obtain ⟨c, hc, -⟩ := h
      cases hc
  | cons c s =>
      rw [List.cons_append, exponent, exponent]
      by_cases hc : c = 'e'.toNat ∨ c = 'E'.toNat
      · have htail : Barred s := h.tail (not_isDelimiter (by tauto))
        have hne : s ≠ [] := by
          rintro rfl
          obtain ⟨d, hd, -⟩ := htail
          cases hd
        have hbarred : Barred (s.drop (sign s).length) := by
          cases s with
          | nil => exact absurd rfl hne
          | cons d s =>
              rw [sign]
              split_ifs with hd
              · exact htail.tail (not_isDelimiter (by tauto))
              · exact htail
        rw [sign_append hne, hbarred.of_drop.2, digits_append hbarred]
      · rw [if_neg (fun h => hc h.1), if_neg (fun h => hc h.1)]

theorem integer_append {s : Str} (h : Barred s) (z : Str) : integer (s ++ z) = integer s := by
  cases s with
  | nil =>
      obtain ⟨c, hc, -⟩ := h
      cases hc
  | cons c s =>
      have hdigits := digits_append h z
      rw [List.cons_append] at hdigits ⊢
      rw [integer, integer, hdigits]

theorem minus_append {s : Str} (h : s ≠ []) (z : Str) : minus (s ++ z) = minus s := by
  cases s with
  | nil => exact absurd rfl h
  | cons c s => rfl

theorem Barred.ne_nil {s : Str} (h : Barred s) : s ≠ [] := by
  rintro rfl
  obtain ⟨c, hc, -⟩ := h
  cases hc

/-- A string or a container: it has an end of its own. -/
def closed : Json → Bool
  | .str _ => true
  | .arr _ => true
  | .obj _ => true
  | _ => false

theorem number_spec {s rest : Str} {v : Json} (h : number s = .ok (v, rest)) :
    Left (bare v = true) s rest ∧ closed v = false ∧
      ∀ z, Barred rest → number (s ++ z) = .ok (v, rest ++ z) := by
  rw [number] at h
  split_ifs at h with hint hlong
  cases h
  refine ⟨?_, rfl, fun z hbarred => ?_⟩
  · rw [List.drop_drop, List.drop_drop, List.drop_drop]
    exact Left.of_drop _ _ rfl
  · obtain ⟨hfrac, hrest⟩ := hbarred.of_drop
    obtain ⟨hinteger, hdrop₃⟩ := hfrac.of_drop
    obtain ⟨hminus, hdrop₂⟩ := hinteger.of_drop
    obtain ⟨hs, hdrop₁⟩ := hminus.of_drop
    rw [number, minus_append hs.ne_nil]
    rw [hdrop₁, integer_append hminus, hdrop₂, fraction_append hinteger, hdrop₃,
      exponent_append hfrac, hrest, if_neg hint, if_neg hlong]

theorem literal_scalar {l s rest : Str} {v v' : Json} (hv : bare v = true)
    (hopen : closed v = false) (h : literal l v s = .ok (v', rest)) :
    Left (bare v' = true) s rest ∧ closed v' = false ∧
      ∀ z, Barred rest → literal l v (s ++ z) = .ok (v', rest ++ z) := by
  rw [literal] at h
  split_ifs at h with hpre
  cases h
  refine ⟨Left.of_drop _ _ hv, hopen, fun z _ => ?_⟩
  have hle := List.isPrefixOf_iff_prefix.mp hpre
  rw [literal, if_pos (List.isPrefixOf_iff_prefix.mpr (hle.trans (List.prefix_append s z))),
    List.drop_append_of_le_length hle.length_le]

/-- After a minus a number has a digit. -/
theorem number_minus {s rest : Str} {v : Json} (h : number s = .ok (v, rest)) (z : Str) :
    (Str.of "-Infinity").isPrefixOf (s ++ z) = false := by
  rw [Bool.eq_false_iff]
  intro hpre
  rw [number] at h
  split_ifs at h with hint
  cases s with
  | nil => exact hint rfl
  | cons c s =>
      cases s with
      | nil =>
          have hc : c = '-'.toNat := by
            simp [Str.of] at hpre
            simpa using hpre.1.symm
          subst hc
          exact hint rfl
      | cons d s =>
          have hpre' : c = '-'.toNat ∧ d = 'I'.toNat := by
            simp [Str.of] at hpre
            exact ⟨hpre.1.symm, hpre.2.1.symm⟩
          obtain ⟨rfl, rfl⟩ := hpre'
          exact hint rfl

theorem scalar_spec {s rest : Str} {v : Json} (h : scalar s = .ok (v, rest)) :
    Left (bare v = true) s rest ∧ closed v = false ∧
      ∀ z, Barred rest → scalar (s ++ z) = .ok (v, rest ++ z) := by
  cases s with
  | nil => cases h
  | cons c s =>
      rw [scalar] at h
      simp only [List.cons_append, scalar]
      split_ifs at h ⊢ with h1 h2 h3 h4 h5 h6
      · exact literal_scalar rfl rfl h
      · exact literal_scalar rfl rfl h
      · exact literal_scalar rfl rfl h
      · exact literal_scalar rfl rfl h
      · exact literal_scalar rfl rfl h
      · obtain ⟨hleft, hopen, hz⟩ := literal_scalar rfl rfl h
        refine ⟨hleft, hopen, fun z hbarred => ?_⟩
        have hle := List.isPrefixOf_iff_prefix.mp h6
        have hle' : Str.of "-Infinity" <+: c :: (s ++ z) :=
          hle.trans (List.prefix_append (c :: s) z)
        rw [if_pos (List.isPrefixOf_iff_prefix.mpr hle')]
        exact hz z hbarred
      · obtain ⟨hleft, hopen, hz⟩ := number_spec h
        refine ⟨hleft, hopen, fun z hbarred => ?_⟩
        rw [if_neg]
        · exact hz z hbarred
        · have hminus := number_minus h z
          rw [List.cons_append] at hminus
          rw [hminus]
          exact Bool.false_ne_true

theorem scanString_spec {s rest x : Str} (h : scanString s = .ok (x, rest)) :
    Left True s rest ∧ ∀ z, scanString (s ++ z) = .ok (x, rest ++ z) := by
  rw [scanString] at h
  obtain ⟨r, hr, heq⟩ := map_ok h
  cases heq
  obtain ⟨hleft, hz⟩ := scanChars_spec hr
  refine ⟨hleft, fun z => ?_⟩
  rw [scanString, hz]
  rfl

theorem skipWs_cons {s s' : Str} {c : Nat} (h : skipWs s = c :: s') :
    Left True s s' ∧ c ∈ s ∧ ∀ z, skipWs (s ++ z) = c :: (s' ++ z) := by
  have hsplit : s.takeWhile isWs ++ c :: s' = s := by
    rw [← h]
    exact List.takeWhile_append_dropWhile
  have hc : isWs c = false := by
    have hhead := List.head?_dropWhile_not isWs s
    rw [← skipWs, h] at hhead
    simpa using hhead
  refine ⟨⟨s.takeWhile isWs ++ [c], ?_, fun _ => trivial⟩, ?_, fun z => ?_⟩
  · rw [List.append_assoc]
    exact hsplit.symm
  · rw [← hsplit]
    exact List.mem_append_right _ List.mem_cons_self
  · rw [skipWs, List.dropWhile_append, ← skipWs, h]
    rfl

/-- It reads a prefix, and the same whatever comes after it. -/
def Reads (val : Str → Scan Json) : Prop :=
  ∀ s v rest, val s = .ok (v, rest) → s ≠ [] ∧ Left (bare v = true) s rest ∧
    ∀ z, closed v = true ∨ Barred rest → val (s ++ z) = .ok (v, rest ++ z)

theorem skipWs_append {s : Str} (h : skipWs s ≠ []) (z : Str) :
    skipWs (s ++ z) = skipWs s ++ z := by
  rw [skipWs, List.dropWhile_append, ← skipWs, if_neg (by simpa using h)]

theorem elements_spec {val : Str → Scan Json} (hval : Reads val) {n : Nat} {s rest : Str}
    {vs : List Json} (h : elements val n s = .ok (vs, rest)) :
    s ≠ [] ∧ Left (bareItems vs = true) s rest ∧
      ∀ z m, n ≤ m → elements val m (s ++ z) = .ok (vs, rest ++ z) := by
  induction n generalizing s vs with
  | zero => cases h
  | succ n ih =>
      rw [elements] at h
      obtain ⟨⟨v, s₁⟩, hv, h⟩ := bind_ok h
      obtain ⟨hne, hleft, happend⟩ := hval s v s₁ hv
      dsimp only at h
      cases hskip : skipWs s₁ with
      | nil =>
          rw [hskip] at h
          cases h
      | cons c s₂ =>
          rw [hskip] at h
          dsimp only at h
          obtain ⟨hleft', hc, hskip'⟩ := skipWs_cons hskip
          refine ⟨hne, ?_⟩
          split_ifs at h with hclose hcomma
          · cases h
            refine ⟨(hleft.trans hleft').imp (fun hb => ?_), fun z m hm => ?_⟩
            · rw [bareItems, bareItems, hb.1]
              rfl
            · obtain ⟨m, rfl⟩ : ∃ k, m = k + 1 := ⟨m - 1, by omega⟩
              have hv' := happend z (.inr ⟨c, hc, by rw [hclose]; rfl⟩)
              rw [elements, hv']
              change (match skipWs (s₁ ++ z) with | [] => _ | c :: s => _) = _
              rw [hskip']
              exact if_pos hclose
          · obtain ⟨⟨vs', rest'⟩, hvs, hok⟩ := bind_ok h
            cases hok
            obtain ⟨hne₂, hleft₂, happend₂⟩ := ih hvs
            refine ⟨?_, fun z m hm => ?_⟩
            · refine (hleft.trans (hleft'.trans ((left_skipWs s₂).trans hleft₂))).imp (fun hb => ?_)
              rw [bareItems, hb.1, hb.2.2.2]
              rfl
            · obtain ⟨m, rfl⟩ : ∃ k, m = k + 1 := ⟨m - 1, by omega⟩
              have hv' := happend z (.inr ⟨c, hc, by rw [hcomma]; rfl⟩)
              rw [elements, hv']
              change (match skipWs (s₁ ++ z) with | [] => _ | c :: s => _) = _
              rw [hskip']
              dsimp only
              rw [if_neg hclose, if_pos hcomma, skipWs_append hne₂,
                happend₂ z m (Nat.le_of_succ_le_succ hm)]
              rfl

theorem members_spec {val : Str → Scan Json} (hval : Reads val) {n : Nat} {d d' : Dict}
    {s rest : Str} (h : members val n d s = .ok (d', rest)) :
    s ≠ [] ∧ Left True s rest ∧
      ∀ z m, n ≤ m → members val m d (s ++ z) = .ok (d', rest ++ z) := by
  induction n generalizing s d with
  | zero => cases h
  | succ n ih =>
      cases s with
      | nil => cases h
      | cons q s =>
          rw [members] at h
          split_ifs at h with hquote
          obtain ⟨⟨k, s₁⟩, hk, h⟩ := bind_ok h
          obtain ⟨hleft₁, happend₁⟩ := scanString_spec hk
          dsimp only at h
          cases hskip : skipWs s₁ with
          | nil =>
              rw [hskip] at h
              cases h
          | cons c s₂ =>
              rw [hskip] at h
              dsimp only at h
              obtain ⟨hleft₂, -, hskip₂⟩ := skipWs_cons hskip
              split_ifs at h with hcolon
              obtain ⟨⟨v, s₃⟩, hv, h⟩ := bind_ok h
              obtain ⟨hne, hleft₃, happend₃⟩ := hval _ v s₃ hv
              dsimp only at h
              cases hskip' : skipWs s₃ with
              | nil =>
                  rw [hskip'] at h
                  cases h
              | cons c' s₄ =>
                  rw [hskip'] at h
                  dsimp only at h
                  obtain ⟨hleft₄, hc', hskip₄⟩ := skipWs_cons hskip'
                  refine ⟨List.cons_ne_nil _ _, ?_⟩
                  have hleft := ((hleft₁.trans (hleft₂.trans ((left_skipWs s₂).trans
                    (hleft₃.trans hleft₄)))).imp (fun _ => trivial)).cons (P := True) q
                  -- up to the brace or the comma nothing depends on what comes after
                  have hstep : ∀ z m, c' = '\x7d'.toNat ∨ c' = ','.toNat →
                      members val (m + 1) d (q :: (s ++ z)) =
                        if c' = '\x7d'.toNat then .ok (put k v d, s₄ ++ z)
                        else if c' = ','.toNat then members val m (put k v d) (skipWs (s₄ ++ z))
                        else .error .malformed := by
                    intro z m hend
                    have hv' := happend₃ z (.inr ⟨c', hc', by
                      rcases hend with rfl | rfl
                      · rfl
                      · rfl⟩)
                    rw [members, if_neg hquote, happend₁]
                    change (match skipWs (s₁ ++ z) with | [] => _ | c :: s => _) = _
                    rw [hskip₂]
                    dsimp only
                    rw [if_neg hcolon, skipWs_append hne, hv']
                    change (match skipWs (s₃ ++ z) with | [] => _ | c :: s => _) = _
                    rw [hskip₄]
                  split_ifs at h with hclose hcomma
                  · cases h
                    refine ⟨hleft, fun z m hm => ?_⟩
                    obtain ⟨m, rfl⟩ : ∃ k, m = k + 1 := ⟨m - 1, by omega⟩
                    rw [List.cons_append, hstep z m (.inl hclose), if_pos hclose]
                  · obtain ⟨hne₅, hleft₅, happend₅⟩ := ih h
                    refine ⟨?_, fun z m hm => ?_⟩
                    · exact (hleft.trans ((left_skipWs s₄).trans hleft₅)).imp (fun _ => trivial)
                    · obtain ⟨m, rfl⟩ : ∃ k, m = k + 1 := ⟨m - 1, by omega⟩
                      rw [List.cons_append, hstep z m (.inr hcomma), if_neg hclose, if_pos hcomma,
                        skipWs_append hne₅, happend₅ z m (Nat.le_of_succ_le_succ hm)]

theorem array_spec {val : Str → Scan Json} (hval : Reads val) {s rest : Str} {v : Json}
    (h : array val s = .ok (v, rest)) : Left (bare v = true) s rest ∧
      ∀ z, array val (s ++ z) = .ok (v, rest ++ z) := by
  rw [array] at h
  cases hskip : skipWs s with
  | nil =>
      rw [hskip] at h
      cases h
  | cons c s₁ =>
      rw [hskip] at h
      dsimp only at h
      obtain ⟨hleft, -, hskip₁⟩ := skipWs_cons hskip
      split_ifs at h with hclose
      · cases h
        refine ⟨hleft.imp (fun _ => rfl), fun z => ?_⟩
        rw [array, hskip₁]
        exact if_pos hclose
      · obtain ⟨r, hr, heq⟩ := map_ok h
        cases heq
        obtain ⟨-, hleft₂, happend⟩ := elements_spec hval hr
        refine ⟨?_, fun z => ?_⟩
        · obtain ⟨u, hu, hb⟩ := hleft₂
          have hs := left_skipWs s
          rw [hskip] at hs
          exact (hs.trans ⟨u, hu, hb⟩).imp (fun hb => by rw [bare, hb.2])
        · rw [array, hskip₁]
          dsimp only
          rw [if_neg hclose]
          have happend' := happend z ((s₁ ++ z).length + 1) (by simp)
          rw [List.cons_append] at happend'
          rw [happend']
          rfl

theorem object_spec {val : Str → Scan Json} (hval : Reads val) {s rest : Str} {v : Json}
    (h : object val s = .ok (v, rest)) : Left True s rest ∧ (∃ d, v = .obj d) ∧
      ∀ z, object val (s ++ z) = .ok (v, rest ++ z) := by
  rw [object] at h
  cases hskip : skipWs s with
  | nil =>
      rw [hskip] at h
      cases h
  | cons c s₁ =>
      rw [hskip] at h
      dsimp only at h
      obtain ⟨hleft, -, hskip₁⟩ := skipWs_cons hskip
      split_ifs at h with hclose
      · cases h
        refine ⟨hleft, ⟨[], rfl⟩, fun z => ?_⟩
        rw [object, hskip₁]
        exact if_pos hclose
      · obtain ⟨r, hr, heq⟩ := map_ok h
        cases heq
        obtain ⟨-, hleft₂, happend⟩ := members_spec hval hr
        refine ⟨?_, ⟨r.1, rfl⟩, fun z => ?_⟩
        · have hs := left_skipWs s
          rw [hskip] at hs
          exact (hs.trans hleft₂).imp (fun _ => trivial)
        · rw [object, hskip₁]
          dsimp only
          rw [if_neg hclose]
          have happend' := happend z ((s₁ ++ z).length + 1) (by simp)
          rw [List.cons_append] at happend'
          rw [happend']
          rfl

theorem valueStep_reads {nested : Option (Str → Scan Json)}
    (hnested : ∀ val, nested = some val → Reads val) : Reads (valueStep nested) := by
  intro s v rest h
  cases s with
  | nil => cases h
  | cons c s =>
      refine ⟨List.cons_ne_nil _ _, ?_⟩
      rw [valueStep.eq_def] at h
      simp only [List.cons_append, valueStep.eq_def _ (_ :: _)]
      dsimp only at h
      split_ifs at h ⊢ with hquote hbrace hbracket
      · obtain ⟨r, hr, heq⟩ := map_ok h
        cases heq
        obtain ⟨hleft, hz⟩ := scanString_spec hr
        refine ⟨(hleft.imp (fun _ => rfl)).cons c, fun z _ => ?_⟩
        rw [hz]
        rfl
      · cases nested with
        | none => cases h
        | some val =>
            obtain ⟨⟨u, hu, -⟩, -, hz⟩ := object_spec (hnested val rfl) h
            refine ⟨⟨c :: u, by rw [hu]; rfl, fun hno => ?_⟩, fun z _ => hz z⟩
            exact absurd (hbrace ▸ List.mem_cons_self) hno
      · cases nested with
        | none => cases h
        | some val =>
            obtain ⟨hleft, hz⟩ := array_spec (hnested val rfl) h
            exact ⟨hleft.cons c, fun z _ => hz z⟩
      · obtain ⟨hleft, hopen, hz⟩ := scalar_spec h
        refine ⟨hleft, fun z hend => hz z (hend.resolve_left ?_)⟩
        rw [hopen]
        exact Bool.false_ne_true

/-- The decoder reads a prefix, and the same whatever comes after. -/
theorem raw_decode_reads (room : Nat) : Reads (raw_decode room) := by
  induction room with
  | zero => exact valueStep_reads (fun _ h => nomatch h)
  | succ room ih =>
      refine valueStep_reads (fun val h => ?_)
      cases h
      exact ih

theorem array_arr {val : Str → Scan Json} {s rest : Str} {v : Json}
    (h : array val s = .ok (v, rest)) : ∃ vs, v = .arr vs := by
  rw [array] at h
  split at h
  · cases h
  · split_ifs at h
    · cases h
      exact ⟨[], rfl⟩
    · obtain ⟨r, -, heq⟩ := map_ok h
      cases heq
      exact ⟨r.1, rfl⟩

/-- An object starts with a brace. -/
theorem brace_of_obj {room : Nat} {s rest : Str} {d : Dict}
    (h : raw_decode room s = .ok (.obj d, rest)) : ∃ s', s = '\x7b'.toNat :: s' := by
  have hstep : ∃ nested, raw_decode room = valueStep nested := by
    cases room with
    | zero => exact ⟨_, rfl⟩
    | succ room => exact ⟨_, rfl⟩
  obtain ⟨nested, hnested⟩ := hstep
  rw [hnested, valueStep.eq_def] at h
  cases s with
  | nil => cases h
  | cons c s =>
      dsimp only at h
      split_ifs at h with hquote hbrace hbracket
      · obtain ⟨r, -, heq⟩ := map_ok h
        cases heq
      · exact ⟨s, by rw [hbrace]⟩
      · cases nested with
        | none => cases h
        | some val =>
            obtain ⟨vs, hvs⟩ := array_arr h
            cases hvs
      · obtain ⟨-, hopen, -⟩ := scalar_spec h
        cases hopen

/-! ## Room

With other room the decoder reads the same, or raises. -/

/-- What is read is read the same, unless there is no room for it. -/
def Agrees {α : Type} (x y : Scan α) : Prop := ∀ r, x = .ok r → y = .ok r ∨ y = .error .tooDeep

theorem Agrees.map {α β : Type} {x y : Scan α} (h : Agrees x y) (f : α × Str → β × Str) :
    Agrees (x.map f) (y.map f) := by
  intro r hr
  obtain ⟨a, ha, rfl⟩ := map_ok hr
  rcases h a ha with hy | hy
  · exact .inl (by rw [hy]; rfl)
  · exact .inr (by rw [hy]; rfl)

theorem elements_agrees {val val' : Str → Scan Json} (h : ∀ s, Agrees (val s) (val' s)) (n : Nat)
    (s : Str) : Agrees (elements val n s) (elements val' n s) := by
  induction n generalizing s with
  | zero =>
      intro r hr
      cases hr
  | succ n ih =>
      intro r hr
      rw [elements] at hr ⊢
      obtain ⟨a, ha, hr⟩ := bind_ok hr
      rcases h s a ha with hy | hy
      · rw [hy]
        change (match skipWs a.2 with | [] => _ | c :: s => _) = _ ∨
          (match skipWs a.2 with | [] => _ | c :: s => _) = _
        dsimp only at hr
        cases hskip : skipWs a.2 with
        | nil =>
            rw [hskip] at hr
            cases hr
        | cons c s' =>
            rw [hskip] at hr
            dsimp only at hr ⊢
            split_ifs at hr ⊢ with hclose hcomma
            · exact .inl hr
            · obtain ⟨b, hb, hr⟩ := bind_ok hr
              rcases ih _ b hb with hy' | hy'
              · exact .inl (by rw [hy']; exact hr)
              · exact .inr (by rw [hy']; rfl)
      · exact .inr (by rw [hy]; rfl)

theorem members_agrees {val val' : Str → Scan Json} (h : ∀ s, Agrees (val s) (val' s)) (n : Nat)
    (d : Dict) (s : Str) : Agrees (members val n d s) (members val' n d s) := by
  induction n generalizing d s with
  | zero =>
      intro r hr
      cases hr
  | succ n ih =>
      intro r hr
      cases s with
      | nil => cases hr
      | cons q s =>
          rw [members] at hr ⊢
          split_ifs at hr ⊢ with hquote
          obtain ⟨a, ha, hr⟩ := bind_ok hr
          rw [ha]
          change (match skipWs a.2 with | [] => _ | c :: s => _) = _ at hr
          change (match skipWs a.2 with | [] => _ | c :: s => _) = _ ∨
            (match skipWs a.2 with | [] => _ | c :: s => _) = _
          cases hskip : skipWs a.2 with
          | nil =>
              rw [hskip] at hr
              cases hr
          | cons c s' =>
              rw [hskip] at hr
              dsimp only at hr ⊢
              split_ifs at hr ⊢ with hcolon
              obtain ⟨b, hb, hr⟩ := bind_ok hr
              rcases h _ b hb with hy | hy
              · rw [hy]
                change (match skipWs b.2 with | [] => _ | c :: s => _) = _ at hr
                change (match skipWs b.2 with | [] => _ | c :: s => _) = _ ∨
                  (match skipWs b.2 with | [] => _ | c :: s => _) = _
                cases hskip' : skipWs b.2 with
                | nil =>
                    rw [hskip'] at hr
                    cases hr
                | cons c' s'' =>
                    rw [hskip'] at hr
                    dsimp only at hr ⊢
                    split_ifs at hr ⊢ with hclose hcomma
                    · exact .inl hr
                    · exact ih _ _ r hr
              · exact .inr (by rw [hy]; rfl)

theorem valueStep_agrees {nested nested' : Option (Str → Scan Json)}
    (h : ∀ val val', nested = some val → nested' = some val' → ∀ s, Agrees (val s) (val' s))
    (s : Str) : Agrees (valueStep nested s) (valueStep nested' s) := by
  intro r hr
  rw [valueStep.eq_def] at hr ⊢
  cases s with
  | nil => cases hr
  | cons c s =>
      dsimp only at hr ⊢
      split_ifs at hr ⊢ with hquote hbrace hbracket
      · exact .inl hr
      · cases nested with
        | none => cases hr
        | some val =>
            cases nested' with
            | none => exact .inr rfl
            | some val' =>
                dsimp only at hr ⊢
                rw [object] at hr ⊢
                cases hskip : skipWs s with
                | nil =>
                    rw [hskip] at hr
                    cases hr
                | cons c' s' =>
                    rw [hskip] at hr
                    dsimp only at hr ⊢
                    split_ifs at hr ⊢
                    · exact .inl hr
                    · exact (members_agrees (h val val' rfl rfl) _ _ _).map _ r hr
      · cases nested with
        | none => cases hr
        | some val =>
            cases nested' with
            | none => exact .inr rfl
            | some val' =>
                dsimp only at hr ⊢
                rw [array] at hr ⊢
                cases hskip : skipWs s with
                | nil =>
                    rw [hskip] at hr
                    cases hr
                | cons c' s' =>
                    rw [hskip] at hr
                    dsimp only at hr ⊢
                    split_ifs at hr ⊢
                    · exact .inl hr
                    · exact (elements_agrees (h val val' rfl rfl) _ _).map _ r hr
      · exact .inl hr

theorem raw_decode_agrees (room room' : Nat) (s : Str) :
    Agrees (raw_decode room s) (raw_decode room' s) := by
  induction room generalizing room' s with
  | zero =>
      have hnone : ∀ nested', Agrees (raw_decode 0 s) (valueStep nested' s) := by
        intro nested'
        refine valueStep_agrees (fun val val' h => ?_) s
        cases h
      cases room' with
      | zero => exact hnone none
      | succ room' => exact hnone (some (raw_decode room'))
  | succ room ih =>
      cases room' with
      | zero =>
          refine valueStep_agrees (fun val val' h h' => ?_) s
          cases h'
      | succ room' =>
          refine valueStep_agrees (fun val val' h h' => ?_) s
          cases h
          cases h'
          exact ih room'

end Json

end Secdogie
