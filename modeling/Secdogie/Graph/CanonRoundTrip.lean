/-
# `Secdogie.Graph.CanonRoundTrip` — the reader reads back what the writer prints

A store re-exports a node as canonical text, and a peer reads that text
again.  `parseWith_toStr`: a well-formed value, printed and read again within
the reader's limits, is the same value.

It is about values whose floats read back, a predicate `P` on floats with the
hypothesis `FloatReads`; graph deltas hold no float and use
`P = fun _ => False`.
-/
import Secdogie.Graph.Canon

namespace Secdogie.Graph

open Cursor

/-! ## Except and cursor plumbing -/

theorem bind_ok {ε α β : Type} {x : Except ε α} {f : α → Except ε β} {r : β} :
    (x >>= f) = .ok r ↔ ∃ a, x = .ok a ∧ f a = .ok r := by
  cases x with
  | error e => simp [bind, Except.bind]
  | ok a => simp [bind, Except.bind]

theorem map_ok {ε α β : Type} {x : Except ε α} {f : α → β} {r : β} :
    x.map f = .ok r ↔ ∃ a, x = .ok a ∧ f a = r := by
  cases x with
  | error e => simp [Except.map]
  | ok a => simp [Except.map]

@[simp] theorem byteLen_nil : byteLen [] = 0 := rfl

@[simp] theorem byteLen_cons (c : Char) (l : List Char) :
    byteLen (c :: l) = c.utf8Size + byteLen l := by simp [byteLen]

@[simp] theorem byteLen_append (l m : List Char) :
    byteLen (l ++ m) = byteLen l + byteLen m := by simp [byteLen]

@[simp] theorem skip_append (l tail : List Char) (i : Nat) :
    (Cursor.mk (l ++ tail) i).skip l.length = ⟨tail, i + byteLen l⟩ := by
  simp [Cursor.skip]

@[simp] theorem skip_one (c : Char) (tail : List Char) (i : Nat) :
    (Cursor.mk (c :: tail) i).skip 1 = ⟨tail, i + c.utf8Size⟩ := by
  simp [Cursor.skip]

@[simp] theorem skip_zero (p : Cursor) : p.skip 0 = p := by
  simp [Cursor.skip]

theorem ws_cons {c : Char} (hc : isWs c = false) (tail : List Char) (i : Nat) :
    (Cursor.mk (c :: tail) i).ws = ⟨c :: tail, i⟩ := by
  simp [Cursor.ws, List.takeWhile, hc]

theorem ws_nil (i : Nat) : (Cursor.mk [] i).ws = ⟨[], i⟩ := rfl

/-! ## Strings -/

theorem hexVal_digitChar : ∀ n < 16, hexVal (Nat.digitChar n) = some n := by decide

theorem hex4_hex4Of {n : Nat} (hn : n < 32) (tail : List Char) (i : Nat) :
    hex4 ⟨hex4Of n ++ tail, i⟩ = .ok (n, ⟨tail, i + byteLen (hex4Of n)⟩) := by
  have h1 : hexVal (Nat.digitChar (n / 16)) = some (n / 16) := hexVal_digitChar _ (by omega)
  have h2 : hexVal (Nat.digitChar (n % 16)) = some (n % 16) := hexVal_digitChar _ (by omega)
  have h0 : hexVal '0' = some 0 := by decide
  simp [hex4, hex4Of, h0, h1, h2, Cursor.skip]
  omega

theorem charFromU32_toNat (c : Char) : charFromU32 c.toNat = some c := by
  have hv : c.toNat.isValidChar := c.valid
  simp [charFromU32, hv, Char.ofNat_toNat]

theorem escapeSeq_low {c : Char} (hc : c.toNat < 32) (tail : List Char) (i : Nat) :
    escapeSeq ⟨'u' :: (hex4Of c.toNat ++ tail), i⟩
      = .ok (c, ⟨tail, i + byteLen ('u' :: hex4Of c.toNat)⟩) := by
  simp only [escapeSeq, Cursor.peek, List.head?_cons, skip_one, unicodeEscape, hex4_hex4Of hc,
    codePoint]
  simp [bind, Except.bind, pure, Except.pure, show ¬ (0xD800 ≤ c.toNat) by omega,
    show ¬ (0xDC00 ≤ c.toNat) by omega, charFromU32_toNat]
  omega

theorem escapeSeq_short {c e : Char} (h : shortEscape c = some e) (tail : List Char) (i : Nat) :
    escapeSeq ⟨e :: tail, i⟩ = .ok (c, ⟨tail, i + e.utf8Size⟩) := by
  unfold shortEscape at h
  split at h <;> cases h <;> simp [escapeSeq, Cursor.peek]

theorem shortEscape_none {c : Char} (h : shortEscape c = none) : c ≠ '"' ∧ c ≠ '\\' := by
  constructor <;> rintro rfl <;> simp [shortEscape] at h

/-- One escaped character is read back as that character. -/
theorem stringLoop_escapeChar (c : Char) (n : Nat) (tail : List Char) (i : Nat) :
    stringLoop (n + 1) ⟨escapeChar c ++ tail, i⟩
      = (stringLoop n ⟨tail, i + byteLen (escapeChar c)⟩).map (fun r => (c :: r.1, r.2)) := by
  have hmap : ∀ (x : Except ParseError (List Char × Cursor)),
      (x >>= fun r => pure (c :: r.1, r.2)) = x.map (fun r => (c :: r.1, r.2)) := by
    intro x
    cases x <;> rfl
  rcases hs : shortEscape c with _ | e
  · by_cases hlow : c.toNat < 0x20
    · have hesc : escapeChar c = '\\' :: 'u' :: hex4Of c.toNat := by simp [escapeChar, hs, hlow]
      simp only [hesc, stringLoop, Cursor.peek, List.cons_append, List.head?_cons, skip_one,
        escapeSeq_low hlow, byteLen_cons, ← Nat.add_assoc]
      exact hmap _
    · have hesc : escapeChar c = [c] := by simp [escapeChar, hs, hlow]
      obtain ⟨hq, hb⟩ := shortEscape_none hs
      simp only [hesc, stringLoop, Cursor.peek, List.singleton_append, List.head?_cons, skip_one,
        byteLen_cons, byteLen_nil, Nat.add_zero]
      rw [if_neg hlow]
      exact hmap _
  · have hesc : escapeChar c = ['\\', e] := by simp [escapeChar, hs]
    simp only [hesc, stringLoop, Cursor.peek, List.cons_append, List.nil_append, List.head?_cons,
      skip_one, escapeSeq_short hs, byteLen_cons, byteLen_nil, Nat.add_zero, ← Nat.add_assoc]
    exact hmap _

theorem stringLoop_escape (s : List Char) : ∀ (n : Nat) (tail : List Char) (i : Nat),
    s.length < n →
    stringLoop n ⟨escape s ++ '"' :: tail, i⟩
      = .ok (s, ⟨tail, i + byteLen (escape s) + 1⟩) := by
  induction s with
  | nil =>
      intro n tail i hn
      obtain ⟨n, rfl⟩ : ∃ m, n = m + 1 := ⟨n - 1, by simp at hn; omega⟩
      simp [stringLoop, escape, Cursor.peek, skip_one]
      rfl
  | cons c s ih =>
      intro n tail i hn
      obtain ⟨n, rfl⟩ : ∃ m, n = m + 1 := ⟨n - 1, by omega⟩
      have hlen : s.length < n := by simpa using hn
      have hcons : escape (c :: s) = escapeChar c ++ escape s := by simp [escape]
      rw [hcons, List.append_assoc, stringLoop_escapeChar, ih _ _ _ hlen]
      simp [Except.map, Nat.add_assoc]

theorem escapeChar_ne_nil (c : Char) : escapeChar c ≠ [] := by
  unfold escapeChar
  split
  · simp
  · split_ifs <;> simp

theorem length_le_escape (s : List Char) : s.length ≤ (escape s).length := by
  induction s with
  | nil => simp
  | cons c s ih =>
      have h : 0 < (escapeChar c).length := List.length_pos_iff.mpr (escapeChar_ne_nil c)
      simp only [escape, List.flatMap_cons, List.length_append, List.length_cons] at ih ⊢
      omega

theorem string_writeStr (s : String) (tail : List Char) (i : Nat) :
    string ⟨writeStr s ++ tail, i⟩ = .ok (s, ⟨tail, i + byteLen (writeStr s)⟩) := by
  have hlen : s.toList.length < ('"' :: escape s.toList ++ ['"'] ++ tail).length := by
    have := length_le_escape s.toList
    simp only [List.length_append, List.length_cons]
    omega
  simp only [string, writeStr]
  rw [show '"' :: escape s.toList ++ ['"'] ++ tail = '"' :: (escape s.toList ++ '"' :: tail) by
    simp] at hlen ⊢
  rw [skip_one, stringLoop_escape _ _ _ _ hlen]
  simp [bind, Except.bind, pure, Except.pure, show '"'.utf8Size = 1 from rfl]
  omega

/-! ## Numbers -/

/-- `tail` does not go on with a number. -/
def Ends (tail : List Char) : Prop :=
  ∀ c, tail.head? = some c → c.isDigit = false ∧ c ≠ '.' ∧ c ≠ 'e' ∧ c ≠ 'E'

theorem ends_nil : Ends [] := by
  intro c hc
  simp at hc

theorem ends_cons {c : Char} (h : c.isDigit = false ∧ c ≠ '.' ∧ c ≠ 'e' ∧ c ≠ 'E')
    (tail : List Char) : Ends (c :: tail) := by
  intro d hd
  obtain rfl : c = d := by simpa using hd
  exact h

theorem digits_append {ds tail : List Char} (h : ∀ c ∈ ds, c.isDigit = true) (ht : Ends tail)
    (i : Nat) : (Cursor.mk (ds ++ tail) i).digits = ds := by
  simp only [Cursor.digits]
  rw [List.takeWhile_append_of_pos h]
  cases tail with
  | nil => simp
  | cons c t => simp [List.takeWhile, (ht c rfl).1]

theorem fraction_ends {tail : List Char} (ht : Ends tail) (start i : Nat) :
    fraction start ⟨tail, i⟩ = .ok [] := by
  cases tail with
  | nil => rfl
  | cons c t =>
      have hc := (ht c rfl).2.1
      simp only [fraction, Cursor.peek, List.head?_cons]
      split
      · next h => exact absurd (Option.some.inj h) hc
      · rfl

theorem exponent_ends {tail : List Char} (ht : Ends tail) (start i : Nat) :
    exponent start ⟨tail, i⟩ = .ok [] := by
  cases tail with
  | nil => rfl
  | cons c t =>
      obtain ⟨-, -, h1, h2⟩ := ht c rfl
      simp [exponent, Cursor.peek, h1, h2]

/-- The digits of a natural number have no leading zero. -/
theorem toDigits_head_zero {n : Nat} (h : (Nat.toDigits 10 n).head? = some '0') : n = 0 := by
  induction n using Nat.strong_induction_on with
  | _ n ih =>
      rcases Nat.lt_or_ge n 10 with hn | hn
      · rw [Nat.toDigits_of_lt_base hn] at h
        simp only [List.head?_cons, Option.some.injEq] at h
        interval_cases n <;> first | rfl | (exact absurd h (by decide))
      · rw [Nat.toDigits_of_base_le (by omega) hn,
          List.head?_append_of_ne_nil _ Nat.toDigits_ne_nil] at h
        have := ih (n / 10) (by omega) h
        omega

variable {F : Type} [FloatCodec F]

theorem number_nat (sign : List Char) (hsign : sign = [] ∨ sign = ['-']) (n : Nat)
    {tail : List Char} (ht : Ends tail) (i : Nat) :
    number (F := F) ⟨sign ++ (Nat.toDigits 10 n ++ tail), i⟩
      = .ok (.int (if sign = [] then n else -n),
          ⟨tail, i + byteLen (sign ++ Nat.toDigits 10 n)⟩) := by
  have hdig : ∀ c ∈ Nat.toDigits 10 n, c.isDigit = true := fun c hc =>
    Nat.isDigit_of_mem_toDigits (by omega) (by omega) hc
  obtain ⟨d, ds, hds⟩ : ∃ d ds, Nat.toDigits 10 n = d :: ds :=
    List.exists_cons_of_ne_nil Nat.toDigits_ne_nil
  have hd : d.isDigit = true := hdig d (by simp [hds])
  have hminus : d ≠ '-' := by
    rintro rfl
    exact absurd hd (by decide)
  have hpeek : minus ⟨sign ++ (Nat.toDigits 10 n ++ tail), i⟩ = sign := by
    rcases hsign with rfl | rfl
    · simp [minus, Cursor.peek, hds, hminus]
    · simp [minus, Cursor.peek]
  have hlead : ¬ (Nat.toDigits 10 n = [] ∨
      (1 < (Nat.toDigits 10 n).length ∧ (Nat.toDigits 10 n).head? = some '0')) := by
    rintro (h | ⟨h1, h0⟩)
    · exact Nat.toDigits_ne_nil h
    · rw [toDigits_head_zero h0] at h1
      simp at h1
  simp only [number, hpeek, skip_append, digits_append hdig ht, if_neg hlead]
  simp [bind, Except.bind, pure, Except.pure, fraction_ends ht, exponent_ends ht, numberValue,
    Nat.ofDigitChars_ten_toDigits, Nat.add_assoc]

theorem number_intDigits (n : Int) {tail : List Char} (ht : Ends tail) (i : Nat) :
    number (F := F) ⟨intDigits n ++ tail, i⟩
      = .ok (.int n, ⟨tail, i + byteLen (intDigits n)⟩) := by
  by_cases hn : n < 0
  · have h := number_nat (F := F) ['-'] (.inr rfl) n.natAbs ht i
    have hval : -|n| = n := by rw [abs_of_neg hn, neg_neg]
    simpa [intDigits, hn, hval] using h
  · have h := number_nat (F := F) [] (.inl rfl) n.natAbs ht i
    have hval : (n.natAbs : Int) = n := by omega
    simpa [intDigits, hn, hval] using h

/-! ## Well-formed values -/

mutual

/-- A value within `room` levels of nesting whose objects are sorted by key
and whose floats satisfy `P`. -/
def Value.WF (P : F → Prop) : Nat → Value F → Prop
  | _, .null => True
  | _, .bool _ => True
  | _, .int _ => True
  | _, .float f => P f
  | _, .str _ => True
  | 0, .arr _ => False
  | room + 1, .arr a => WFItems P room a
  | 0, .obj _ => False
  | room + 1, .obj m => m.Pairwise (fun e e' => e.1 < e'.1) ∧ WFMembers P room m

def WFItems (P : F → Prop) (room : Nat) : List (Value F) → Prop
  | [] => True
  | v :: rest => v.WF P room ∧ WFItems P room rest

def WFMembers (P : F → Prop) (room : Nat) : List (String × Value F) → Prop
  | [] => True
  | (_, v) :: rest => v.WF P room ∧ WFMembers P room rest

end

omit [FloatCodec F] in
theorem wfItems_iff {P : F → Prop} {room : Nat} {a : List (Value F)} :
    WFItems P room a ↔ ∀ v ∈ a, v.WF P room := by
  induction a with
  | nil => simp [WFItems]
  | cons v rest ih => simp [WFItems, ih]

omit [FloatCodec F] in
theorem wfMembers_iff {P : F → Prop} {room : Nat} {m : List (String × Value F)} :
    WFMembers P room m ↔ ∀ e ∈ m, e.2.WF P room := by
  induction m with
  | nil => simp [WFMembers]
  | cons e rest ih => simp [WFMembers, ih]

/-- A float that reads back where the writer put it. -/
def FloatReads (f : F) : Prop :=
  (∃ c t, FloatCodec.repr f = c :: t ∧ isWs c = false ∧ c ≠ ']' ∧ c ≠ '\x7d') ∧
  ∀ room tail i, Ends tail → value room ⟨FloatCodec.repr f ++ tail, i⟩
    = .ok (.float f, ⟨tail, i + byteLen (FloatCodec.repr f)⟩)

/-- The first character of a canonical text: never white space, never a
closing bracket. -/
theorem writeValue_head {P : F → Prop} (hP : ∀ f, P f → FloatReads f) {room : Nat}
    {v : Value F} (hv : v.WF P room) :
    ∃ c t, writeValue v = c :: t ∧ isWs c = false ∧ c ≠ ']' ∧ c ≠ '\x7d' := by
  cases v with
  | null => exact ⟨_, _, rfl, rfl, by decide, by decide⟩
  | bool b => cases b <;> exact ⟨_, _, rfl, rfl, by decide, by decide⟩
  | str s => exact ⟨_, _, rfl, rfl, by decide, by decide⟩
  | arr a => exact ⟨_, _, rfl, rfl, by decide, by decide⟩
  | obj m => exact ⟨_, _, rfl, rfl, by decide, by decide⟩
  | float f => exact (hP f (by simpa [Value.WF] using hv)).1
  | int n =>
      obtain ⟨c, t, hct⟩ := List.exists_cons_of_ne_nil
        (Nat.toDigits_ne_nil (n := n.natAbs) (b := 10))
      have hc : c.isDigit = true := Nat.isDigit_of_mem_toDigits (by omega) (by omega)
        (n := n.natAbs) (b := 10) (by simp [hct])
      have hws : isWs c = false ∧ c ≠ ']' ∧ c ≠ '\x7d' := by
        refine ⟨?_, ?_, ?_⟩
        · by_contra hw
          simp only [isWs, Bool.not_eq_false, Bool.or_eq_true, beq_iff_eq] at hw
          rcases hw with ((rfl | rfl) | rfl) | rfl <;> revert hc <;> decide
        · rintro rfl; revert hc; decide
        · rintro rfl; revert hc; decide
      by_cases hn : n < 0
      · exact ⟨'-', c :: t, by simp [writeValue, intDigits, hn, hct], rfl, by decide, by decide⟩
      · exact ⟨c, t, by simp [writeValue, intDigits, hn, hct], hws⟩

/-! ## Reading what was written -/

/-- `value` at `room` reads `v` wherever the writer put it. -/
def Reads (room : Nat) (v : Value F) : Prop :=
  ∀ tail i, Ends tail → value room ⟨writeValue v ++ tail, i⟩
    = .ok (v, ⟨tail, i + byteLen (writeValue v)⟩)

theorem value_eq_step (room : Nat) :
    ∃ nested, value (F := F) room = valueStep nested := by
  cases room with
  | zero => exact ⟨_, rfl⟩
  | succ room => exact ⟨_, rfl⟩

/-- At a digit, or at a minus sign that no `-Infinity` follows, `value` reads
a number. -/
theorem value_number (room : Nat) {c : Char} (hc : c.isDigit = true ∨ c = '-') (rest : List Char)
    (i : Nat) (hinf : Cursor.eat "-Infinity".toList ⟨c :: rest, i⟩ = none) :
    value (F := F) room ⟨c :: rest, i⟩ = number ⟨c :: rest, i⟩ := by
  have hne : c ≠ '\x7b' ∧ c ≠ '[' ∧ c ≠ '"' ∧ c ≠ 't' ∧ c ≠ 'f' ∧ c ≠ 'n' ∧ c ≠ 'N' ∧ c ≠ 'I' := by
    refine ⟨?_, ?_, ?_, ?_, ?_, ?_, ?_, ?_⟩ <;> rintro rfl <;> revert hc <;> decide
  obtain ⟨h1, h2, h3, h4, h5, h6, h7, h8⟩ := hne
  have hnan : Cursor.eat "NaN".toList ⟨c :: rest, i⟩ = none := by
    simp [Cursor.eat, List.isPrefixOf, Ne.symm h7]
  have hinf' : Cursor.eat "Infinity".toList ⟨c :: rest, i⟩ = none := by
    simp [Cursor.eat, List.isPrefixOf, Ne.symm h8]
  obtain ⟨nested, hstep⟩ := value_eq_step (F := F) room
  simp only [hstep, valueStep, Cursor.peek, List.head?_cons, hnan, hinf', hinf]
  simp [h1, h2, h3, h4, h5, h6, hc.symm]

theorem reads_int (room : Nat) (n : Int) : Reads (F := F) room (.int n) := by
  intro tail i ht
  obtain ⟨c, t, hct⟩ := List.exists_cons_of_ne_nil
    (Nat.toDigits_ne_nil (n := n.natAbs) (b := 10))
  have hc : c.isDigit = true := Nat.isDigit_of_mem_toDigits (by omega) (by omega)
    (n := n.natAbs) (b := 10) (by simp [hct])
  rw [writeValue, ← number_intDigits n ht i]
  by_cases hn : n < 0
  · have hI : 'I' ≠ c := by
      rintro rfl
      revert hc
      decide
    rw [intDigits, if_pos hn, hct]
    exact value_number room (.inr rfl) _ i (by simp [Cursor.eat, List.isPrefixOf, hI])
  · have hminus : '-' ≠ c := by
      rintro rfl
      revert hc
      decide
    rw [intDigits, if_neg hn, hct]
    exact value_number room (.inl hc) _ i (by simp [Cursor.eat, List.isPrefixOf, hminus])

theorem reads_str (room : Nat) (s : String) : Reads (F := F) room (.str s) := by
  intro tail i _
  have hhead : (Cursor.mk (writeStr s ++ tail) i).peek = some '"' := rfl
  obtain ⟨nested, hstep⟩ := value_eq_step (F := F) room
  simp [hstep, valueStep, writeValue, hhead, string_writeStr, Except.map]

theorem reads_literal (room : Nat) : ∀ (v : Value F), v = .null ∨ v = .bool true ∨ v = .bool false →
    Reads room v := by
  obtain ⟨nested, hstep⟩ := value_eq_step (F := F) room
  rintro v (rfl | rfl | rfl) tail i - <;>
    simp [hstep, valueStep, writeValue, Cursor.peek, literal, Cursor.eat, Cursor.skip,
      List.isPrefixOf]

/-! ### Containers -/

theorem ends_comma (tail : List Char) : Ends (',' :: tail) := ends_cons (by decide) tail

theorem ends_bracket (tail : List Char) : Ends (']' :: tail) := ends_cons (by decide) tail

theorem ends_brace (tail : List Char) : Ends ('\x7d' :: tail) := ends_cons (by decide) tail

theorem ends_moreItems (a : List (Value F)) (tail : List Char) :
    Ends (writeMoreItems a ++ tail) := by
  cases a with
  | nil => exact ends_bracket tail
  | cons v rest => exact ends_comma _

theorem ends_moreMembers (m : List (String × Value F)) (tail : List Char) :
    Ends (writeMoreMembers m ++ tail) := by
  cases m with
  | nil => exact ends_brace tail
  | cons e rest => exact ends_comma _

/-- The text of a non-empty array, once its first item is set apart. -/
theorem elements_write {P : F → Prop} (hP : ∀ f, P f → FloatReads f) (room : Nat) :
    ∀ (a : List (Value F)) (n : Nat) (tail : List Char) (i : Nat), a ≠ [] → a.length ≤ n →
      WFItems P room a → (∀ v ∈ a, Reads room v) →
      elements (value room) n ⟨writeItems a ++ tail, i⟩
        = .ok (a, ⟨tail, i + byteLen (writeItems a)⟩)
  | [], _, _, _, h, _, _, _ => absurd rfl h
  | v :: rest, 0, _, _, _, h, _, _ => by simp at h
  | v :: rest, n + 1, tail, i, _, hn, hwf, hreads => by
      obtain ⟨c, t, hct, hws, -⟩ := writeValue_head hP hwf.1
      have hv := hreads v (by simp) (writeMoreItems rest ++ tail) i (ends_moreItems rest tail)
      have hstart : (Cursor.mk (writeValue v ++ (writeMoreItems rest ++ tail)) i).ws
          = ⟨writeValue v ++ (writeMoreItems rest ++ tail), i⟩ := by
        rw [hct]
        exact ws_cons hws _ _
      simp only [elements, writeItems, List.append_assoc, hstart, hv]
      cases rest with
      | nil =>
          have hclose : ∀ j, (Cursor.mk (']' :: tail) j).ws = ⟨']' :: tail, j⟩ := fun j =>
            ws_cons (by decide) _ _
          simp [bind, Except.bind, pure, Except.pure, hclose, Cursor.peek, writeMoreItems,
            Nat.add_assoc]
      | cons v' rest' =>
          have hcomma : ∀ j, (Cursor.mk (writeMoreItems (v' :: rest') ++ tail) j).ws
              = ⟨',' :: (writeItems (v' :: rest') ++ tail), j⟩ := fun j => by
            simpa [writeMoreItems, writeItems] using ws_cons (c := ',') (by decide) _ j
          have ih := elements_write hP room (v' :: rest') n tail
            (i + byteLen (writeValue v) + ','.utf8Size) (by simp) (by simpa using hn) hwf.2
            (fun w hw => hreads w (List.mem_cons_of_mem _ hw))
          simp [bind, Except.bind, pure, Except.pure, hcomma, Cursor.peek, ih]
          simp [writeMoreItems, writeItems, Nat.add_assoc]

theorem objInsert_snoc {V : Type} (k : String) (v : V) :
    ∀ (m : List (String × V)), (∀ e ∈ m, e.1 < k) → objInsert k v m = m ++ [(k, v)]
  | [], _ => rfl
  | e :: rest, h => by
      have he : e.1 < k := h e (by simp)
      rw [objInsert, if_neg (lt_asymm he), if_neg (ne_of_gt he),
        objInsert_snoc k v rest (fun e' he' => h e' (List.mem_cons_of_mem _ he'))]
      rfl

theorem objGet_eq_none {V : Type} {k : String} {m : List (String × V)}
    (h : ∀ e ∈ m, e.1 ≠ k) : objGet m k = none := by
  simp only [objGet, Option.map_eq_none_iff, List.find?_eq_none, beq_iff_eq]
  exact h

/-- The members of an object: `m` have been read, `m'` are still ahead. -/
theorem members_write {P : F → Prop} (hP : ∀ f, P f → FloatReads f) (room : Nat) :
    ∀ (m' m : List (String × Value F)) (n : Nat) (tail : List Char) (i : Nat), m' ≠ [] →
      m'.length ≤ n → (m ++ m').Pairwise (fun e e' => e.1 < e'.1) → WFMembers P room m' →
      (∀ e ∈ m', Reads room e.2) →
      members (value room) n m ⟨writeMembers m' ++ tail, i⟩
        = .ok (.obj (m ++ m'), ⟨tail, i + byteLen (writeMembers m')⟩)
  | [], _, _, _, _, h, _, _, _, _ => absurd rfl h
  | e :: rest, _, 0, _, _, _, h, _, _, _ => by simp at h
  | (k, v) :: rest, m, n + 1, tail, i, _, hn, hsort, hwf, hreads => by
      obtain ⟨c, t, hct, hws, -⟩ := writeValue_head hP hwf.1
      have hlt : ∀ e ∈ m, e.1 < k := fun e he =>
        (List.pairwise_append.mp hsort).2.2 e he (k, v) (by simp)
      have hstart : (Cursor.mk (writeMembers ((k, v) :: rest) ++ tail) i).ws
          = ⟨writeStr k ++ (':' :: (writeValue v ++ (writeMoreMembers rest ++ tail))), i⟩ := by
        simpa [writeMembers, writeStr] using ws_cons (c := '"') (by decide) _ i
      have hquote : (Cursor.mk (writeStr k ++
          (':' :: (writeValue v ++ (writeMoreMembers rest ++ tail)))) i).peek = some '"' := rfl
      have hcolon : ∀ j, (Cursor.mk (':' :: (writeValue v ++ (writeMoreMembers rest ++ tail))) j).ws
          = ⟨':' :: (writeValue v ++ (writeMoreMembers rest ++ tail)), j⟩ := fun j =>
        ws_cons (by decide) _ _
      have hval : ∀ j, (Cursor.mk (writeValue v ++ (writeMoreMembers rest ++ tail)) j).ws
          = ⟨writeValue v ++ (writeMoreMembers rest ++ tail), j⟩ := fun j => by
        rw [hct]
        exact ws_cons hws _ _
      have hv := fun j => hreads (k, v) (by simp) (writeMoreMembers rest ++ tail) j
        (ends_moreMembers rest tail)
      have hnew : objGet m k = none := objGet_eq_none fun e he => ne_of_lt (hlt e he)
      simp only [members, hstart, hquote]
      simp only [ne_eq, not_true_eq_false, if_false, string_writeStr, bind, Except.bind, hcolon,
        Cursor.peek, List.head?_cons, skip_one, hval, hv, hnew, Option.isSome_none,
        Bool.false_eq_true, objInsert_snoc k v m hlt]
      cases rest with
      | nil =>
          have hclose : ∀ j, (Cursor.mk ('\x7d' :: tail) j).ws = ⟨'\x7d' :: tail, j⟩ := fun j =>
            ws_cons (by decide) _ _
          simp [pure, Except.pure, hclose, writeMembers, writeMoreMembers, Nat.add_assoc]
      | cons e' rest' =>
          obtain ⟨k', v'⟩ := e'
          have hcomma : ∀ j, (Cursor.mk (writeMoreMembers ((k', v') :: rest') ++ tail) j).ws
              = ⟨',' :: (writeMembers ((k', v') :: rest') ++ tail), j⟩ := fun j => by
            simpa [writeMoreMembers, writeMembers] using ws_cons (c := ',') (by decide) _ j
          have ih := fun j => members_write hP room ((k', v') :: rest') (m ++ [(k, v)]) n tail j
            (by simp) (by simpa using hn) (by simpa using hsort) hwf.2
            (fun w hw => hreads w (List.mem_cons_of_mem _ hw))
          simp only [hcomma, List.head?_cons, skip_one, ih]
          simp [writeMoreMembers, writeMembers, Nat.add_assoc]


theorem length_le_writeItems {P : F → Prop} (hP : ∀ f, P f → FloatReads f) {room : Nat} :
    ∀ {a : List (Value F)}, WFItems P room a → a.length ≤ (writeMoreItems a).length
  | [], _ => by simp
  | v :: rest, hwf => by
      have ih := length_le_writeItems hP hwf.2
      simp only [writeMoreItems, List.length_cons, List.length_append]
      omega

theorem length_le_writeMembers {P : F → Prop} (hP : ∀ f, P f → FloatReads f) {room : Nat} :
    ∀ {m : List (String × Value F)}, WFMembers P room m → m.length ≤ (writeMoreMembers m).length
  | [], _ => by simp
  | (k, v) :: rest, hwf => by
      have ih := length_le_writeMembers hP hwf.2
      simp only [writeMoreMembers, List.length_cons, List.length_append]
      omega

theorem reads_arr {P : F → Prop} (hP : ∀ f, P f → FloatReads f) {room : Nat}
    {a : List (Value F)} (hwf : WFItems P room a) (ha : ∀ v ∈ a, Reads room v) :
    Reads (room + 1) (.arr a) := by
  intro tail i _
  cases a with
  | nil =>
      have hclose : ∀ j, (Cursor.mk (']' :: tail) j).ws = ⟨']' :: tail, j⟩ := fun j =>
        ws_cons (by decide) _ _
      simp [value, valueStep, array, writeValue, writeItems, Cursor.peek, hclose, Nat.add_assoc]
  | cons v rest =>
      obtain ⟨c, t, hct, hws, hne, -⟩ := writeValue_head hP hwf.1
      have hstart : ∀ j, (Cursor.mk (writeItems (v :: rest) ++ tail) j).ws
          = ⟨writeItems (v :: rest) ++ tail, j⟩ := fun j => by
        simpa [writeItems, hct] using ws_cons hws _ j
      have hpeek : ∀ j, (Cursor.mk (writeItems (v :: rest) ++ tail) j).peek ≠ some ']' := fun j => by
        simpa [writeItems, hct, Cursor.peek] using hne
      have hlen : (v :: rest).length ≤ ('[' :: (writeItems (v :: rest) ++ tail)).length := by
        have := length_le_writeItems hP (a := rest) hwf.2
        simp only [writeItems, List.length_cons, List.length_append]
        omega
      have helem := fun j => elements_write hP room (v :: rest) _ tail j (by simp) hlen hwf ha
      have hhead : (Cursor.mk ('[' :: (writeItems (v :: rest) ++ tail)) i).peek = some '[' := rfl
      simp only [value, valueStep, writeValue, List.cons_append, hhead, array, skip_one, hstart,
        if_neg (hpeek _), helem]
      simp [Except.map, Nat.add_assoc]

theorem reads_obj {P : F → Prop} (hP : ∀ f, P f → FloatReads f) {room : Nat}
    {m : List (String × Value F)} (hsort : m.Pairwise (fun e e' => e.1 < e'.1))
    (hwf : WFMembers P room m) (hm : ∀ e ∈ m, Reads room e.2) :
    Reads (room + 1) (.obj m) := by
  intro tail i _
  cases m with
  | nil =>
      have hclose : ∀ j, (Cursor.mk ('\x7d' :: tail) j).ws = ⟨'\x7d' :: tail, j⟩ := fun j =>
        ws_cons (by decide) _ _
      simp [value, valueStep, object, writeValue, writeMembers, Cursor.peek, hclose, Nat.add_assoc]
  | cons e rest =>
      obtain ⟨k, v⟩ := e
      have hstart : ∀ j, (Cursor.mk (writeMembers ((k, v) :: rest) ++ tail) j).ws
          = ⟨writeMembers ((k, v) :: rest) ++ tail, j⟩ := fun j => by
        simpa [writeMembers, writeStr] using ws_cons (c := '"') (by decide) _ j
      have hpeek : ∀ j, (Cursor.mk (writeMembers ((k, v) :: rest) ++ tail) j).peek
          ≠ some '\x7d' := fun j => by
        simp [writeMembers, writeStr, Cursor.peek]
      have hlen : ((k, v) :: rest).length
          ≤ ('\x7b' :: (writeMembers ((k, v) :: rest) ++ tail)).length := by
        have := length_le_writeMembers hP (m := rest) hwf.2
        simp only [writeMembers, List.length_cons, List.length_append]
        omega
      have hmem := fun j => members_write hP room ((k, v) :: rest) [] _ tail j (by simp) hlen
        (by simpa using hsort) hwf hm
      have hhead : (Cursor.mk ('\x7b' :: (writeMembers ((k, v) :: rest) ++ tail)) i).peek
          = some '\x7b' := rfl
      simp only [value, valueStep, writeValue, List.cons_append, hhead, object, skip_one, hstart,
        if_neg (hpeek _), hmem]
      simp [Nat.add_assoc]

mutual

/-- Every well-formed value reads back, by induction on the value. -/
theorem reads_of_wf {P : F → Prop} (hP : ∀ f, P f → FloatReads f) :
    ∀ (v : Value F) (room : Nat), v.WF P room → Reads room v
  | .null, room, _ => reads_literal room _ (.inl rfl)
  | .bool true, room, _ => reads_literal room _ (.inr (.inl rfl))
  | .bool false, room, _ => reads_literal room _ (.inr (.inr rfl))
  | .int n, room, _ => reads_int room n
  | .float f, room, h => fun tail i ht => (hP f (by simpa [Value.WF] using h)).2 room tail i ht
  | .str s, room, _ => reads_str room s
  | .arr a, 0, h => by simp [Value.WF] at h
  | .arr a, room + 1, h => reads_arr hP (by simpa [Value.WF] using h)
      (readsItems_of_wf hP a room (by simpa [Value.WF] using h))
  | .obj m, 0, h => by simp [Value.WF] at h
  | .obj m, room + 1, h => by
      have h' : m.Pairwise (fun e e' => e.1 < e'.1) ∧ WFMembers P room m := by
        simpa [Value.WF] using h
      exact reads_obj hP h'.1 h'.2 (readsMembers_of_wf hP m room h'.2)

theorem readsItems_of_wf {P : F → Prop} (hP : ∀ f, P f → FloatReads f) :
    ∀ (a : List (Value F)) (room : Nat), WFItems P room a → ∀ v ∈ a, Reads room v
  | [], _, _ => by simp
  | v :: rest, room, h => by
      have h1 := reads_of_wf hP v room h.1
      have h2 := readsItems_of_wf hP rest room h.2
      exact List.forall_mem_cons.mpr ⟨h1, h2⟩

theorem readsMembers_of_wf {P : F → Prop} (hP : ∀ f, P f → FloatReads f) :
    ∀ (m : List (String × Value F)) (room : Nat), WFMembers P room m → ∀ e ∈ m, Reads room e.2
  | [], _, _ => by simp
  | (_, v) :: rest, room, h => by
      have h1 := reads_of_wf hP v room h.1
      have h2 := readsMembers_of_wf hP rest room h.2
      exact List.forall_mem_cons.mpr ⟨h1, h2⟩

end

theorem utf8ByteSize_ofList (l : List Char) : (String.ofList l).utf8ByteSize = byteLen l := by
  induction l with
  | nil => rfl
  | cons c l ih => simp [String.ofList_cons, ih]

/-- A well-formed value, printed and read again, is the same value. -/
theorem parseWith_toStr {P : F → Prop} (hP : ∀ f, P f → FloatReads f) {limits : Limits}
    {v : Value F} (hv : v.WF P limits.max_depth) (hlen : (toStr v).utf8ByteSize ≤ limits.max_bytes) :
    parseWith (toStr v) limits = .ok v := by
  obtain ⟨c, t, hct, hws, -⟩ := writeValue_head hP hv
  have hread := reads_of_wf hP v limits.max_depth hv [] 0 ends_nil
  have hstart : (Cursor.mk (writeValue v) 0).ws = ⟨writeValue v, 0⟩ := by
    rw [hct]
    exact ws_cons hws _ _
  rw [List.append_nil] at hread
  rw [parseWith, if_neg (by omega)]
  simp [toStr, hstart, hread, bind, Except.bind, pure, Except.pure, ws_nil]

end Secdogie.Graph
