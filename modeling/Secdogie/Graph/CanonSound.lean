/-
# `Secdogie.Graph.CanonSound` — what the reader accepts

Two facts about every text the reader accepts.  The value it returns is
well-formed (`wf_of_parseWith`): sorted objects, within the depth limit.  And
a value without floats is written back in no more bytes than were read
(`size_toStr_le`), so that a peer under the same size limit can always read
the canonical form of what this reader accepted.

Both go by one account of the cursor: `Spent p q n` says that going from `p`
to `q` lost no byte and used up at least `n`.
-/
import Secdogie.Graph.CanonRoundTrip

namespace Secdogie.Graph

open Cursor

section

variable {F : Type} [FloatCodec F]

/-! ## What reading spends -/

/-- Reading from `p` to `q` spent at least `n` bytes, and lost none. -/
def Spent (p q : Cursor) (n : Nat) : Prop :=
  q.i + byteLen q.rest = p.i + byteLen p.rest ∧ p.i + n ≤ q.i

theorem Spent.trans {p q r : Cursor} {n m k : Nat} (h : Spent p q n) (h' : Spent q r m)
    (hk : k ≤ n + m) : Spent p r k := by
  obtain ⟨h1, h2⟩ := h
  obtain ⟨h3, h4⟩ := h'
  exact ⟨by omega, by omega⟩

theorem Spent.mono {p q : Cursor} {n k : Nat} (h : Spent p q n) (hk : k ≤ n) : Spent p q k :=
  ⟨h.1, by have := h.2; omega⟩

theorem spent_skip (p : Cursor) (n : Nat) : Spent p (p.skip n) (byteLen (p.rest.take n)) := by
  have h : byteLen (p.rest.take n) + byteLen (p.rest.drop n) = byteLen p.rest := by
    rw [← byteLen_append, List.take_append_drop]
  exact ⟨by simp only [Cursor.skip]; omega, by simp [Cursor.skip]⟩

theorem spent_ws (p : Cursor) : Spent p p.ws 0 := (spent_skip p _).mono (Nat.zero_le _)

theorem peek_eq_some {p : Cursor} {c : Char} (h : p.peek = some c) :
    ∃ t, p.rest = c :: t := by
  obtain ⟨rest, i⟩ := p
  cases rest with
  | nil => simp [Cursor.peek] at h
  | cons d t =>
      obtain rfl : d = c := by simpa [Cursor.peek] using h
      exact ⟨t, rfl⟩

theorem spent_one {p : Cursor} {c : Char} (h : p.peek = some c) :
    Spent p (p.skip 1) c.utf8Size := by
  obtain ⟨t, ht⟩ := peek_eq_some h
  simpa [ht] using spent_skip p 1

theorem spent_byte {p : Cursor} {c : Char} (h : p.peek = some c) : Spent p (p.skip 1) 1 :=
  (spent_one h).mono (Char.utf8Size_pos c)

theorem length_le_byteLen (l : List Char) : l.length ≤ byteLen l := by
  induction l with
  | nil => simp
  | cons c l ih =>
      have := Char.utf8Size_pos c
      simp only [List.length_cons, byteLen_cons]
      omega

theorem spent_hex4 {p q : Cursor} {n : Nat} (h : hex4 p = .ok (n, q)) : Spent p q 4 := by
  unfold hex4 at h
  split at h
  · next c₁ c₂ c₃ c₄ t ht =>
    split at h
    · cases h
      have hlen := length_le_byteLen (p.rest.take 4)
      refine (spent_skip p 4).mono ?_
      simpa [ht] using hlen
    · simp [Cursor.err] at h
  · simp [Cursor.err] at h

theorem eat_eq_some {lit : List Char} {p q : Cursor} (h : p.eat lit = some q) :
    q = p.skip lit.length ∧ Spent p q (byteLen lit) := by
  unfold Cursor.eat at h
  split at h
  · next hp =>
    cases h
    obtain ⟨t, ht⟩ := List.isPrefixOf_iff_prefix.mp hp
    refine ⟨rfl, (spent_skip p _).mono ?_⟩
    simp [← ht]
  · simp at h

theorem spent_codePoint {hi cp : Nat} {p q : Cursor} (h : codePoint hi p = .ok (cp, q)) :
    Spent p q 0 := by
  unfold codePoint at h
  split_ifs at h with hs hl
  · split at h
    · simp [Cursor.err] at h
    · next p' he =>
      obtain ⟨⟨lo, p₃⟩, h4, h5⟩ := bind_ok.mp h
      dsimp only at h5
      split_ifs at h5
      · obtain ⟨-, rfl⟩ := Prod.mk.inj (Except.ok.inj h5)
        exact (eat_eq_some he).2.trans (spent_hex4 h4) (Nat.zero_le _)
      · simp [Cursor.err] at h5
  · simp [Cursor.err] at h
  · cases h
    exact ⟨rfl, le_rfl⟩

/-- A `\u` escape spends at least the four digits of one code unit. -/
theorem spent_unicodeEscape {p q : Cursor} {c : Char} (h : unicodeEscape p = .ok (c, q)) :
    Spent p q 4 := by
  simp only [unicodeEscape, bind_ok] at h
  obtain ⟨⟨hi, p₁⟩, h1, ⟨cp, p₂⟩, h2, h3⟩ := h
  split at h3
  · cases h3
    exact (spent_hex4 h1).trans (spent_codePoint h2) (by omega)
  · simp [Cursor.err] at h3

theorem byteLen_escapeChar_le (c : Char) : byteLen (escapeChar c) ≤ 6 := by
  unfold escapeChar
  split
  · next e he =>
    unfold shortEscape at he
    split at he <;> cases he <;> decide
  · split_ifs with hlow
    · have : ∀ n < 32, byteLen ('\\' :: 'u' :: hex4Of n) = 6 := by decide
      rw [this _ hlow]
    · have := Char.utf8Size_le_four c
      simp only [byteLen_cons, byteLen_nil]
      omega

theorem spent_escapeSeq {p q : Cursor} {c : Char} (h : escapeSeq p = .ok (c, q)) :
    Spent p q (byteLen (escapeChar c) - 1) := by
  unfold escapeSeq at h
  split at h
  all_goals first
    | (simp [Cursor.err] at h; done)
    | (next hp => cases h; exact (spent_byte hp).mono (by decide))
    | skip
  next hp =>
    have := byteLen_escapeChar_le c
    exact (spent_byte hp).trans (spent_unicodeEscape h) (by omega)

theorem escapeChar_plain {c : Char} (hq : c ≠ '"') (hb : c ≠ '\\') (hlow : ¬ c.toNat < 0x20) :
    escapeChar c = [c] := by
  have hs : shortEscape c = none := by
    unfold shortEscape
    split <;> first | rfl | (exact absurd rfl hq) | (exact absurd rfl hb) | (exact absurd (by decide) hlow)
  simp [escapeChar, hs, hlow]

theorem spent_stringLoop : ∀ {n : Nat} {p q : Cursor} {s : List Char},
    stringLoop n p = .ok (s, q) → Spent p q (byteLen (escape s) + 1)
  | 0, p, q, s, h => by simp [stringLoop, Cursor.err] at h
  | n + 1, p, q, s, h => by
      rw [stringLoop] at h
      split at h
      · simp [Cursor.err] at h
      · next hp =>
        cases h
        exact spent_byte hp
      · next hp =>
        obtain ⟨⟨c, p₁⟩, h1, h2⟩ := bind_ok.mp h
        obtain ⟨⟨s', p₂⟩, h3, h4⟩ := bind_ok.mp h2
        cases h4
        refine ((spent_byte hp).trans (spent_escapeSeq h1) le_rfl).trans (spent_stringLoop h3) ?_
        simp only [escape, List.flatMap_cons, byteLen_append]
        omega
      · next c hq hb hp =>
        split_ifs at h with hlow
        · simp [Cursor.err] at h
        · obtain ⟨⟨s', p₂⟩, h3, h4⟩ := bind_ok.mp h
          cases h4
          refine (spent_one hp).trans (spent_stringLoop h3) ?_
          simp only [escape, List.flatMap_cons, byteLen_append,
            escapeChar_plain (by simpa using hq) (by simpa using hb) hlow, byteLen_cons, byteLen_nil]
          omega

theorem spent_string {p q : Cursor} {s : String} (hp : p.peek = some '"')
    (h : string p = .ok (s, q)) : Spent p q (byteLen (writeStr s)) := by
  obtain ⟨⟨l, q'⟩, h1, h2⟩ := bind_ok.mp h
  cases h2
  refine (spent_byte hp).trans (spent_stringLoop h1) ?_
  simp [writeStr, show '"'.utf8Size = 1 from rfl]

/-! ## Numbers -/

theorem ofDigitChars_lt : ∀ (ds : List Char) (init : Nat), (∀ c ∈ ds, c.isDigit = true) →
    Nat.ofDigitChars 10 ds init < (init + 1) * 10 ^ ds.length
  | [], init, _ => by simp
  | c :: ds, init, h => by
      have ih := ofDigitChars_lt ds (10 * init + (c.toNat - '0'.toNat))
        (fun d hd => h d (List.mem_cons_of_mem _ hd))
      have hc : c.toNat - '0'.toNat < 10 := by
        have := h c (by simp)
        simp only [Char.isDigit, Bool.and_eq_true, decide_eq_true_eq, ge_iff_le] at this
        have h9 : c.toNat ≤ 57 := UInt32.le_iff_toNat_le.mp this.2
        have : '0'.toNat = 48 := rfl
        omega
      rw [Nat.ofDigitChars_cons]
      refine lt_of_lt_of_le ih ?_
      rw [List.length_cons, pow_succ, ← Nat.mul_assoc, Nat.mul_right_comm]
      refine Nat.mul_le_mul_right _ ?_
      omega

theorem byteLen_digits {ds : List Char} (h : ∀ c ∈ ds, c.isDigit = true) :
    byteLen ds = ds.length := by
  induction ds with
  | nil => rfl
  | cons c ds ih =>
      have hc : c.utf8Size = 1 := by
        have := h c (by simp)
        simp only [Char.isDigit, Bool.and_eq_true, decide_eq_true_eq, ge_iff_le] at this
        rw [Char.utf8Size_eq_one_iff]
        exact UInt32.le_trans this.2 (by decide)
      rw [byteLen_cons, hc, ih (fun d hd => h d (List.mem_cons_of_mem _ hd)), List.length_cons]
      omega

/-- The digits of a number read from digits are no more than those. -/
theorem byteLen_toDigits_le {ds : List Char} (hne : ds ≠ []) (h : ∀ c ∈ ds, c.isDigit = true) :
    byteLen (Nat.toDigits 10 (Nat.ofDigitChars 10 ds 0)) ≤ byteLen ds := by
  have hpos : 0 < ds.length := List.length_pos_iff.mpr hne
  have hlt := ofDigitChars_lt ds 0 h
  rw [byteLen_digits h, byteLen_digits (fun c hc => Nat.isDigit_of_mem_toDigits (by omega) (by omega) hc),
    Nat.length_toDigits_le_iff (by omega) hpos]
  simpa using hlt

theorem spent_minus (p : Cursor) : Spent p (p.skip (minus p).length) (byteLen (minus p)) := by
  by_cases hm : p.peek = some '-'
  · obtain ⟨t, ht⟩ := peek_eq_some hm
    simpa [minus, hm, ht] using spent_skip p 1
  · simpa [minus, hm] using spent_skip p 0

theorem spent_digits (p : Cursor) : Spent p (p.skip p.digits.length) (byteLen p.digits) := by
  have h := spent_skip p p.digits.length
  have htake : p.rest.take p.digits.length = p.digits :=
    (List.prefix_iff_eq_take.mp (List.takeWhile_prefix _)).symm
  rwa [htake] at h

theorem minus_eq (p : Cursor) : minus p = [] ∨ minus p = ['-'] := by
  unfold minus
  split_ifs <;> simp

theorem byteLen_intDigits_le (s : List Char) (hs : s = [] ∨ s = ['-']) (n : Nat) {k : Nat}
    (hn : byteLen (Nat.toDigits 10 n) ≤ k) :
    byteLen (intDigits (if s = [] then (n : Int) else -(n : Int))) ≤ byteLen s + k := by
  obtain rfl | rfl := hs
  · have hneg : ¬ ((n : Int) < 0) := by omega
    simpa [intDigits, hneg] using hn
  · rcases Nat.eq_zero_or_pos n with rfl | hpos
    · exact le_trans (by simpa [intDigits] using hn) (Nat.le_add_left _ _)
    · have hneg : (-(n : Int)) < 0 := by omega
      have hone : '-'.utf8Size = 1 := rfl
      simpa [intDigits, hpos, hone] using hn

/-- An integer is written back in no more bytes than its token had. -/
theorem spent_number {p q : Cursor} {n : Int}
    (h : number (F := F) p = .ok (.int n, q)) : Spent p q (byteLen (intDigits n)) := by
  simp only [number] at h
  split_ifs at h with hds
  obtain ⟨frac, -, h⟩ := bind_ok.mp h
  obtain ⟨exp, -, h⟩ := bind_ok.mp h
  obtain ⟨v, hv, h⟩ := bind_ok.mp h
  obtain ⟨rfl, rfl⟩ := Prod.mk.inj (Except.ok.inj h)
  have hn : n = if minus p = [] then
      (Nat.ofDigitChars 10 (p.skip (minus p).length).digits 0 : Int)
      else -(Nat.ofDigitChars 10 (p.skip (minus p).length).digits 0 : Int) := by
    unfold numberValue at hv
    split_ifs at hv with h1 h2 <;> first | (split at hv <;> simp at hv) | simp_all
  have hdig : ∀ c ∈ (p.skip (minus p).length).digits, c.isDigit = true :=
    fun c hc => List.mem_takeWhile_imp hc
  have hlen := byteLen_toDigits_le (fun hnil => hds (.inl hnil)) hdig
  have hbytes := byteLen_intDigits_le (minus p) (minus_eq p) _ hlen
  have h2 := (spent_minus p).trans (spent_digits _) le_rfl
  have h3 := (h2.trans (spent_skip _ frac.length) le_rfl).trans (spent_skip _ exp.length) le_rfl
  exact h3.mono (by rw [hn]; omega)

/-! ## Containers -/

/-- What a reader of values returns is well-formed; without floats it is
written back in no more bytes than were read. -/
def Sound (room : Nat) (val : Cursor → Except ParseError (Value F × Cursor)) : Prop :=
  ∀ p v q, val p = .ok (v, q) → v.WF (fun _ => True) room ∧
    (v.WF (fun _ => False) room → Spent p q (byteLen (writeValue v)))

theorem byteLen_writeMoreItems (v : Value F) (rest : List (Value F)) :
    byteLen (writeMoreItems (v :: rest)) = 1 + byteLen (writeItems (v :: rest)) := by
  simp [writeMoreItems, writeItems, show ','.utf8Size = 1 from rfl]

theorem sound_elements {room : Nat} {val : Cursor → Except ParseError (Value F × Cursor)}
    (hval : Sound room val) : ∀ {n : Nat} {p q : Cursor} {a : List (Value F)},
    elements val n p = .ok (a, q) → a ≠ [] ∧ WFItems (fun _ => True) room a ∧
      (WFItems (fun _ => False) room a → Spent p q (byteLen (writeItems a)))
  | 0, p, q, a, h => by simp [elements, Cursor.err] at h
  | n + 1, p, q, a, h => by
      rw [elements] at h
      obtain ⟨⟨v, p₁⟩, h1, h2⟩ := bind_ok.mp h
      obtain ⟨hwf, hspent⟩ := hval _ _ _ h1
      dsimp only at h2
      split at h2
      · next hp =>
        obtain ⟨⟨rest, p₂⟩, h3, h4⟩ := bind_ok.mp h2
        obtain ⟨hne, hrest, hspent'⟩ := sound_elements hval h3
        cases h4
        refine ⟨by simp, ⟨hwf, hrest⟩, fun hff => ?_⟩
        obtain ⟨w, ws, rfl⟩ := List.exists_cons_of_ne_nil hne
        have hv := (spent_ws p).trans (hspent hff.1) (Nat.le_add_left _ _)
        have hcomma := (hv.trans (spent_ws p₁) le_rfl).trans (spent_byte hp) le_rfl
        refine hcomma.trans (hspent' hff.2) ?_
        rw [writeItems, byteLen_append, byteLen_writeMoreItems]
        omega
      · next hp =>
        cases h2
        refine ⟨by simp, ⟨hwf, trivial⟩, fun hff => ?_⟩
        have hv := (spent_ws p).trans (hspent hff.1) (Nat.le_add_left _ _)
        refine (hv.trans (spent_ws p₁) le_rfl).trans (spent_byte hp) ?_
        simp [writeItems, writeMoreItems, show ']'.utf8Size = 1 from rfl]
      · simp [Cursor.err] at h2

/-- What the members of an object take on the page, each with the comma or
the bracket after it. -/
def memberCost : List (String × Value F) → Nat
  | [] => 0
  | (k, v) :: rest => byteLen (writeStr k) + byteLen (writeValue v) + 2 + memberCost rest

theorem byteLen_writeMembers : ∀ (k : String) (v : Value F) (m : List (String × Value F)),
    byteLen (writeMembers ((k, v) :: m)) = memberCost ((k, v) :: m)
  | k, v, [] => by
      simp [writeMembers, writeMoreMembers, memberCost, show ':'.utf8Size = 1 from rfl,
        show '\x7d'.utf8Size = 1 from rfl]
      omega
  | k, v, (k', v') :: m => by
      have ih := byteLen_writeMembers k' v' m
      simp only [writeMembers, writeMoreMembers, memberCost, byteLen_append, byteLen_cons,
        show ':'.utf8Size = 1 from rfl, show ','.utf8Size = 1 from rfl] at ih ⊢
      omega

theorem memberCost_objInsert (k : String) (v : Value F) : ∀ {m : List (String × Value F)},
    objGet m k = none → memberCost (objInsert k v m) = memberCost ((k, v) :: m)
  | [], _ => rfl
  | (k', v') :: m, h => by
      have hk : k ≠ k' := by
        rintro rfl
        simp [objGet] at h
      have hm : objGet m k = none := by simpa [objGet, Ne.symm hk] using h
      unfold objInsert
      split_ifs
      · rfl
      · have ih := memberCost_objInsert k v hm
        simp only [memberCost] at ih ⊢
        omega

omit [FloatCodec F] in
theorem wfMembers_objInsert {P : F → Prop} {room : Nat} (k : String) (v : Value F) :
    ∀ {m : List (String × Value F)}, objGet m k = none →
    (WFMembers P room (objInsert k v m) ↔ v.WF P room ∧ WFMembers P room m)
  | [], _ => by simp [objInsert, WFMembers]
  | (k', v') :: m, h => by
      have hk : k ≠ k' := by
        rintro rfl
        simp [objGet] at h
      have hm : objGet m k = none := by simpa [objGet, Ne.symm hk] using h
      unfold objInsert
      split_ifs
      · simp [WFMembers]
      · simp only [WFMembers, wfMembers_objInsert k v hm]
        tauto

theorem mem_objInsert {V : Type} {k : String} {v : V} {e : String × V} :
    ∀ {m : List (String × V)}, e ∈ objInsert k v m → e = (k, v) ∨ e ∈ m
  | [], h => .inl (by simpa [objInsert] using h)
  | d :: m, h => by
      unfold objInsert at h
      split_ifs at h
      · simpa using h
      · rcases List.mem_cons.mp h with rfl | h
        · exact .inl rfl
        · exact .inr (List.mem_cons_of_mem _ h)
      · rcases List.mem_cons.mp h with rfl | h
        · exact .inr List.mem_cons_self
        · exact (mem_objInsert h).imp_right (List.mem_cons_of_mem _)

/-- Insertion keeps the keys of an object in order. -/
theorem sorted_objInsert {V : Type} (k : String) (v : V) : ∀ {m : List (String × V)},
    m.Pairwise (fun e e' => e.1 < e'.1) → (objInsert k v m).Pairwise (fun e e' => e.1 < e'.1)
  | [], _ => List.pairwise_singleton _ _
  | d :: m, h => by
      obtain ⟨hd, hm⟩ := List.pairwise_cons.mp h
      unfold objInsert
      split_ifs with hlt heq
      · refine List.pairwise_cons.mpr ⟨fun e he => ?_, h⟩
        rcases List.mem_cons.mp he with rfl | he
        · exact hlt
        · exact lt_trans hlt (hd e he)
      · exact List.pairwise_cons.mpr ⟨fun e he => heq ▸ hd e he, hm⟩
      · refine List.pairwise_cons.mpr ⟨fun e he => ?_, sorted_objInsert k v hm⟩
        rcases mem_objInsert he with rfl | he
        · exact lt_of_le_of_ne (not_lt.mp hlt) (Ne.symm heq)
        · exact hd e he

omit [FloatCodec F] in
/-- `obj` builds well-formed objects. -/
theorem wf_obj {P : F → Prop} {room : Nat} {pairs : List (String × Value F)}
    (h : ∀ e ∈ pairs, e.2.WF P room) : (obj pairs).WF P (room + 1) := by
  have hfold : ∀ (pairs m : List (String × Value F)), (∀ e ∈ pairs, e.2.WF P room) →
      m.Pairwise (fun e e' => e.1 < e'.1) → (∀ e ∈ m, e.2.WF P room) →
      (Value.obj (pairs.foldl (fun m e => objInsert e.1 e.2 m) m)).WF P (room + 1) := by
    intro pairs
    induction pairs with
    | nil => exact fun m _ hs hm => ⟨hs, wfMembers_iff.mpr hm⟩
    | cons e pairs ih =>
        intro m hp hs hm
        refine ih _ (fun x hx => hp x (List.mem_cons_of_mem _ hx)) (sorted_objInsert _ _ hs) ?_
        intro x hx
        rcases mem_objInsert hx with rfl | hx
        · exact hp e (by simp)
        · exact hm x hx
  exact hfold pairs [] h List.Pairwise.nil (by simp)

omit [FloatCodec F] in
theorem wf_str {P : F → Prop} (room : Nat) (s : String) : (Value.str s : Value F).WF P room := by
  cases room <;> trivial

omit [FloatCodec F] in
theorem wf_int {P : F → Prop} (room : Nat) (n : Int) : (Value.int n : Value F).WF P room := by
  cases room <;> trivial

omit [FloatCodec F] in
theorem wf_strArr {P : F → Prop} (room : Nat) (items : List String) :
    (strArr items : Value F).WF P (room + 1) :=
  wfItems_iff.mpr (fun v hv => by
    obtain ⟨s, -, rfl⟩ := List.mem_map.mp hv
    exact wf_str room s)

theorem objGet_of_mem {V : Type} {m : List (String × V)} {e : String × V}
    (hsort : m.Pairwise (fun e e' => e.1 < e'.1)) (he : e ∈ m) : objGet m e.1 = some e.2 := by
  induction m with
  | nil => simp at he
  | cons d m ih =>
      obtain ⟨hd, hm⟩ := List.pairwise_cons.mp hsort
      rcases List.mem_cons.mp he with rfl | he
      · simp [objGet]
      · have hne : d.1 ≠ e.1 := (hd e he).ne
        simpa [objGet, hne] using ih hm he

theorem objGet_mem {V : Type} {l : List (String × V)} {k : String} {v : V}
    (h : objGet l k = some v) : (k, v) ∈ l := by
  obtain ⟨e, he, rfl⟩ := Option.map_eq_some_iff.mp h
  have hk : e.1 = k := by simpa using List.find?_some he
  exact hk ▸ List.mem_of_find?_eq_some he

theorem keys_objInsert {V : Type} (k : String) (v : V) : ∀ (l : List (String × V)) (q : String),
    (∃ w, (q, w) ∈ objInsert k v l) ↔ q = k ∨ ∃ w, (q, w) ∈ l
  | [], q => by simp [objInsert]
  | d :: l, q => by
      unfold objInsert
      split_ifs with hlt heq
      · simp [exists_or]
      · subst heq
        obtain ⟨k', v'⟩ := d
        simp [exists_or]
      · simp only [List.mem_cons, exists_or, keys_objInsert k v l q]
        tauto

omit [FloatCodec F] in
/-- An object made of pairs has exactly their keys, each with one of their
values, in order. -/
theorem obj_spec (pairs : List (String × Value F)) : ∃ l, obj pairs = .obj l ∧
    l.Pairwise (fun e e' => e.1 < e'.1) ∧ (∀ e ∈ l, e ∈ pairs) ∧
    ∀ k, (∃ w, (k, w) ∈ pairs) → ∃ w, (k, w) ∈ l := by
  have hfold : ∀ (pairs l : List (String × Value F)), l.Pairwise (fun e e' => e.1 < e'.1) →
      (pairs.foldl (fun m e => objInsert e.1 e.2 m) l).Pairwise (fun e e' => e.1 < e'.1) ∧
      (∀ e ∈ pairs.foldl (fun m e => objInsert e.1 e.2 m) l, e ∈ pairs ∨ e ∈ l) ∧
      ∀ k, ((∃ w, (k, w) ∈ pairs) ∨ ∃ w, (k, w) ∈ l) →
        ∃ w, (k, w) ∈ pairs.foldl (fun m e => objInsert e.1 e.2 m) l := by
    intro pairs
    induction pairs with
    | nil => exact fun l hl => ⟨hl, fun _ he => .inr he, fun k hk => by simpa using hk⟩
    | cons p pairs ih =>
        intro l hl
        obtain ⟨hsort, hsub, hkeys⟩ := ih _ (sorted_objInsert p.1 p.2 hl)
        refine ⟨hsort, fun e he => ?_, fun k hk => hkeys k ?_⟩
        · rcases hsub e he with he | he
          · exact .inl (List.mem_cons_of_mem _ he)
          · exact (mem_objInsert he).imp_left (fun heq => List.mem_cons.mpr (.inl heq))
        · rw [keys_objInsert]
          rcases hk with ⟨w, hw⟩ | hk
          · rcases List.mem_cons.mp hw with rfl | hw
            · exact .inr (.inl rfl)
            · exact .inl ⟨w, hw⟩
          · exact .inr (.inr hk)
  obtain ⟨hsort, hsub, hkeys⟩ := hfold pairs [] List.Pairwise.nil
  exact ⟨_, rfl, hsort, fun e he => (hsub e he).resolve_right (by simp),
    fun k hk => hkeys k (.inl hk)⟩

omit [FloatCodec F] in
/-- A sorted list of members that looks up like the pairs, and has no other
keys, is the object made of them. -/
theorem obj_eq {pairs m : List (String × Value F)} (hsort : m.Pairwise (fun e e' => e.1 < e'.1))
    (hkeys : ∀ e ∈ m, ∃ w, (e.1, w) ∈ pairs) (hget : ∀ e ∈ pairs, objGet m e.1 = some e.2) :
    obj pairs = .obj m := by
  obtain ⟨l, hl, hlsort, hsub, hall⟩ := obj_spec pairs
  rw [hl]
  -- both lists are sorted, so it is enough that they have the same members
  have hmem : ∀ e, e ∈ l ↔ e ∈ m := by
    rintro ⟨k, w⟩
    constructor
    · exact fun he => objGet_mem (hget _ (hsub _ he))
    · intro he
      obtain ⟨u, hu⟩ := hall k (hkeys _ he)
      have heq : u = w :=
        Option.some.inj ((hget _ (hsub _ hu)).symm.trans (objGet_of_mem hsort he))
      exact heq ▸ hu
  have hnodup : ∀ {l : List (String × Value F)}, l.Pairwise (fun e e' => e.1 < e'.1) → l.Nodup :=
    fun h => h.imp (fun hlt heq => absurd (heq ▸ hlt) (lt_irrefl _))
  have hperm : l.Perm m := (List.perm_ext_iff_of_nodup (hnodup hlsort) (hnodup hsort)).mpr hmem
  exact congrArg Value.obj (hperm.eq_of_pairwise
    (fun a b _ _ hab hba => absurd (hab.trans hba) (lt_irrefl _)) hlsort hsort)

theorem sound_members {room : Nat} {val : Cursor → Except ParseError (Value F × Cursor)}
    (hval : Sound room val) : ∀ {n : Nat} {m : List (String × Value F)} {p q : Cursor}
    {o : Value F}, members val n m p = .ok (o, q) → m.Pairwise (fun e e' => e.1 < e'.1) →
    WFMembers (fun _ => True) room m → ∃ m' b, o = .obj m' ∧ m' ≠ [] ∧
      m'.Pairwise (fun e e' => e.1 < e'.1) ∧ WFMembers (fun _ => True) room m' ∧
      (WFMembers (fun _ => False) room m' → WFMembers (fun _ => False) room m ∧
        memberCost m' = memberCost m + b ∧ Spent p q b)
  | 0, m, p, q, o, h, _, _ => by simp [members, Cursor.err] at h
  | n + 1, m, p, q, o, h, hsort, hm => by
      rw [members] at h
      dsimp only at h
      by_cases hquote : p.ws.peek ≠ some '"'
      · rw [if_pos hquote] at h
        simp [Cursor.err] at h
      rw [if_neg hquote] at h
      obtain ⟨⟨k, p₁⟩, hk, h⟩ := bind_ok.mp h
      dsimp only at h
      by_cases hcolon : p₁.ws.peek ≠ some ':'
      · rw [if_pos hcolon] at h
        simp [Cursor.err] at h
      rw [if_neg hcolon] at h
      obtain ⟨⟨v, p₂⟩, hv, h⟩ := bind_ok.mp h
      obtain ⟨hwf, hspent⟩ := hval _ _ _ hv
      dsimp only at h
      split_ifs at h with hdup
      · obtain ⟨_, h, -⟩ := bind_ok.mp h
        cases h
      have hnew : objGet m k = none := by simpa using hdup
      -- the member itself: white space, key, colon, value, and what follows it
      have hmember : v.WF (fun _ => False) room →
          Spent p p₂.ws (byteLen (writeStr k) + byteLen (writeValue v) + 1) := by
        intro hff
        have h1 := (spent_ws p).trans (spent_string (by simpa using hquote) hk) le_rfl
        have h2 := (h1.trans (spent_ws p₁) le_rfl).trans (spent_byte (by simpa using hcolon)) le_rfl
        have h3 := (h2.trans (spent_ws _) le_rfl).trans (hspent hff) le_rfl
        exact h3.trans (spent_ws p₂) (by omega)
      have hsort' := sorted_objInsert k v hsort
      have hm' := (wfMembers_objInsert (P := fun _ => True) k v hnew).mpr ⟨hwf, hm⟩
      split at h
      · next hp =>
        obtain ⟨m', b, rfl, hne, hs', hw', hcost⟩ := sound_members hval h hsort' hm'
        refine ⟨m', b + (byteLen (writeStr k) + byteLen (writeValue v) + 2), rfl, hne, hs', hw',
          fun hff => ?_⟩
        obtain ⟨hins, hb, hsp⟩ := hcost hff
        obtain ⟨hvff, hmff⟩ := (wfMembers_objInsert k v hnew).mp hins
        refine ⟨hmff, ?_, ((hmember hvff).trans (spent_byte hp) le_rfl).trans hsp (by omega)⟩
        rw [hb, memberCost_objInsert k v hnew, memberCost]
        omega
      · next hp =>
        obtain ⟨rfl, rfl⟩ := Prod.mk.inj (Except.ok.inj h)
        refine ⟨_, byteLen (writeStr k) + byteLen (writeValue v) + 2, rfl, ?_, hsort', hm',
          fun hff => ?_⟩
        · intro hnil
          have := memberCost_objInsert k v hnew
          rw [hnil, memberCost, memberCost] at this
          omega
        obtain ⟨hvff, hmff⟩ := (wfMembers_objInsert k v hnew).mp hff
        refine ⟨hmff, ?_, (hmember hvff).trans (spent_byte hp) (by omega)⟩
        rw [memberCost_objInsert k v hnew, memberCost]
        omega
      · simp [Cursor.err] at h

theorem sound_object {room : Nat} {val : Cursor → Except ParseError (Value F × Cursor)}
    (hval : Sound room val) {p q : Cursor} {o : Value F} (hp : p.peek = some '\x7b')
    (h : object val p = .ok (o, q)) : o.WF (fun _ => True) (room + 1) ∧
      (o.WF (fun _ => False) (room + 1) → Spent p q (byteLen (writeValue o))) := by
  unfold object at h
  dsimp only at h
  have hopen := (spent_byte hp).trans (spent_ws _) le_rfl
  split_ifs at h with hempty
  · obtain ⟨rfl, rfl⟩ := Prod.mk.inj (Except.ok.inj h)
    exact ⟨by simp [Value.WF, WFMembers], fun _ => hopen.trans (spent_byte hempty) (le_refl 2)⟩
  · obtain ⟨m, b, rfl, hne, hs, hw, hcost⟩ := sound_members hval h List.Pairwise.nil trivial
    refine ⟨⟨hs, hw⟩, fun hff => ?_⟩
    obtain ⟨-, hb, hsp⟩ := hcost hff.2
    obtain ⟨⟨k, v⟩, m', rfl⟩ := List.exists_cons_of_ne_nil hne
    refine hopen.trans hsp ?_
    rw [writeValue, byteLen_cons, byteLen_writeMembers, hb, memberCost]
    simp [show '\x7b'.utf8Size = 1 from rfl]

theorem sound_array {room : Nat} {val : Cursor → Except ParseError (Value F × Cursor)}
    (hval : Sound room val) {p q : Cursor} {o : Value F} (hp : p.peek = some '[')
    (h : array val p = .ok (o, q)) : o.WF (fun _ => True) (room + 1) ∧
      (o.WF (fun _ => False) (room + 1) → Spent p q (byteLen (writeValue o))) := by
  unfold array at h
  dsimp only at h
  have hopen := (spent_byte hp).trans (spent_ws _) le_rfl
  split_ifs at h with hempty
  · obtain ⟨rfl, rfl⟩ := Prod.mk.inj (Except.ok.inj h)
    exact ⟨by simp [Value.WF, WFItems], fun _ => hopen.trans (spent_byte hempty) (le_refl 2)⟩
  · obtain ⟨⟨a, q'⟩, ha, hr⟩ := map_ok.mp h
    obtain ⟨rfl, rfl⟩ := Prod.mk.inj hr
    obtain ⟨hne, hw, hsp⟩ := sound_elements hval ha
    refine ⟨hw, fun hff => hopen.trans (hsp hff) ?_⟩
    rw [writeValue, byteLen_cons]
    simp [show '['.utf8Size = 1 from rfl]

/-- A number token is read as an integer or as a float. -/
theorem number_kind {p q : Cursor} {v : Value F} (h : number p = .ok (v, q)) :
    (∃ n, v = .int n) ∨ ∃ f, v = .float f := by
  simp only [number] at h
  split_ifs at h with hds
  obtain ⟨frac, -, h⟩ := bind_ok.mp h
  obtain ⟨exp, -, h⟩ := bind_ok.mp h
  obtain ⟨v', hv, h⟩ := bind_ok.mp h
  obtain ⟨rfl, -⟩ := Prod.mk.inj (Except.ok.inj h)
  unfold numberValue at hv
  split at hv
  · exact .inl ⟨_, (Except.ok.inj hv).symm⟩
  · split at hv
    · exact .inr ⟨_, (Except.ok.inj hv).symm⟩
    · cases hv

theorem sound_literal {room : Nat} {lit : List Char} {v : Value F} (hlit : writeValue v = lit)
    (hwf : ∀ P, v.WF P room) {p q : Cursor} {w : Value F} (h : literal lit v p = .ok (w, q)) :
    w.WF (fun _ => True) room ∧
      (w.WF (fun _ => False) room → Spent p q (byteLen (writeValue w))) := by
  unfold literal at h
  split at h
  · next he =>
    obtain ⟨rfl, rfl⟩ := Prod.mk.inj (Except.ok.inj h)
    exact ⟨hwf _, fun _ => hlit ▸ (eat_eq_some he).2⟩
  · simp [Cursor.err] at h

/-- Every branch of `value` is sound, given that the nested reader is. -/
theorem sound_valueStep {room : Nat}
    {nested : Option (Cursor → Except ParseError (Value F × Cursor))}
    (hnested : ∀ val, nested = some val → ∃ r, room = r + 1 ∧ Sound r val) :
    Sound room (valueStep nested) := by
  intro p v q h
  unfold valueStep at h
  split at h
  · simp [Cursor.err] at h
  next c hc =>
  split_ifs at h with hobj harr hstr ht hf hn hnan hnum
  · split at h
    · simp [Cursor.err] at h
    · obtain ⟨r, rfl, hval⟩ := hnested _ rfl
      exact sound_object hval (hobj ▸ hc) h
  · split at h
    · simp [Cursor.err] at h
    · obtain ⟨r, rfl, hval⟩ := hnested _ rfl
      exact sound_array hval (harr ▸ hc) h
  · obtain ⟨⟨s, q'⟩, hs, hr⟩ := map_ok.mp h
    obtain ⟨rfl, rfl⟩ := Prod.mk.inj hr
    exact ⟨by simp [Value.WF], fun _ => spent_string (hstr ▸ hc) hs⟩
  · exact sound_literal (v := (.bool true)) rfl (fun P => by simp [Value.WF]) h
  · exact sound_literal (v := (.bool false)) rfl (fun P => by simp [Value.WF]) h
  · exact sound_literal (v := .null) rfl (fun P => by simp [Value.WF]) h
  · simp [Cursor.err] at h
  · rcases number_kind h with ⟨n, rfl⟩ | ⟨f, rfl⟩
    · exact ⟨by simp [Value.WF], fun _ => spent_number h⟩
    · exact ⟨by simp [Value.WF], fun hff => absurd hff (by simp [Value.WF])⟩
  · simp [Cursor.err] at h

theorem sound_value : ∀ room, Sound (F := F) room (value room)
  | 0 => sound_valueStep (fun val h => by cases h)
  | room + 1 => sound_valueStep (fun val h => by
      cases h
      exact ⟨room, rfl, sound_value room⟩)

/-- What `parseWith` accepts is well-formed. -/
theorem wf_of_parseWith {text : String} {limits : Limits} {v : Value F}
    (h : parseWith text limits = .ok v) : v.WF (fun _ => True) limits.max_depth := by
  unfold parseWith at h
  split_ifs at h with hbytes
  obtain ⟨⟨w, q⟩, h1, h2⟩ := bind_ok.mp h
  dsimp only at h2
  split_ifs at h2
  · simp [Cursor.err] at h2
  · cases h2
    exact (sound_value _ _ _ _ h1).1

/-- Writing back what was read never takes more room, floats apart. -/
theorem size_toStr_le {text : String} {limits : Limits} {v : Value F}
    (h : parseWith text limits = .ok v) (hff : v.WF (fun _ => False) limits.max_depth) :
    (toStr v).utf8ByteSize ≤ text.utf8ByteSize := by
  unfold parseWith at h
  split_ifs at h with hbytes
  obtain ⟨⟨w, q⟩, h1, h2⟩ := bind_ok.mp h
  dsimp only at h2
  split_ifs at h2
  · simp [Cursor.err] at h2
  · cases h2
    have hsp := (spent_ws ⟨text.toList, 0⟩).trans ((sound_value _ _ _ _ h1).2 hff) le_rfl
    have htext : text.utf8ByteSize = byteLen text.toList := by
      conv_lhs => rw [← String.ofList_toList (s := text), utf8ByteSize_ofList]
    rw [toStr, utf8ByteSize_ofList, htext]
    have h1 := hsp.1
    have h2 := hsp.2
    simp only at h1 h2
    omega

end

end Secdogie.Graph
