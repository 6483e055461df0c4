/-
# `Secdogie.Graph.RouteSafe` — where the scanner panics

All slices of the scanner but one are at ASCII bytes, and so on a character.
The one is the window of twelve bytes in which an entity has to end: it panics
when the twelfth byte after an ampersand is in the middle of a character
(`decodeEntities_iff`).  Every loop ends.

`scan_panics_iff`: a scan panics if and only if a value it decodes has such an
ampersand.
-/
import Secdogie.Graph.Route

namespace Secdogie.Graph.Route

open Utf8 (isBoundary isAscii IsText)

/-! ## Entities -/

/-- Twelve bytes after an ampersand a character goes on. -/
def straddles : Bytes → Bool
  | [] => false
  | b :: t => (b == 0x26 && !isBoundary (t.drop 11)) || straddles t

theorem straddles_append {a : Bytes} (ha : 0x26 ∉ a) (u : Bytes) :
    straddles (a ++ u) = straddles u := by
  induction a with
  | nil => rfl
  | cons b a ih =>
      rw [List.mem_cons, not_or] at ha
      have hb : (b == 0x26) = false := beq_eq_false_iff_ne.mpr (Ne.symm ha.1)
      rw [List.cons_append, straddles, hb, Bool.false_and, Bool.false_or, ih ha.2]

theorem slice_ok {t : Bytes} {k : Nat} (hk : k ≤ t.length) (ht : IsText t) (hd : IsText (t.drop k)) :
    slice t k = .ok (t.take k) := by
  rw [slice, if_pos ⟨hk, ht.isBoundary, hd.isBoundary⟩]

theorem sliceFrom_ok {t : Bytes} {k : Nat} (hk : k ≤ t.length) (hd : IsText (t.drop k)) :
    sliceFrom t k = .ok (t.drop k) := by
  rw [sliceFrom, if_pos ⟨hk, hd.isBoundary⟩]

theorem sliceFrom_one {b : UInt8} {t : Bytes} (ht : IsText t) : sliceFrom (b :: t) 1 = .ok t :=
  sliceFrom_ok (by simp) ht

theorem foldl_digits_none (radix : Nat) (s : Bytes) :
    s.foldl (fun n b =>
      match n, digitVal b with
      | some n, some d => if d < radix ∧ n * radix + d < 2 ^ 32 then some (n * radix + d) else none
      | _, _ => none) none = none := by
  induction s with
  | nil => rfl
  | cons b s ih => exact ih

theorem fromStrRadix_ampersand {radix : Nat} {s : Bytes} (h : 0x26 ∈ s) :
    fromStrRadix radix s = none := by
  have hfold : ∀ (s : Bytes) (n : Option Nat), 0x26 ∈ s → s.foldl (fun n b =>
      match n, digitVal b with
      | some n, some d => if d < radix ∧ n * radix + d < 2 ^ 32 then some (n * radix + d) else none
      | _, _ => none) n = none := by
    intro s
    induction s with
    | nil => exact fun _ h => nomatch h
    | cons b s ih =>
        intro n h
        rw [List.foldl_cons]
        rcases List.mem_cons.mp h with rfl | h
        · have hdigit : digitVal 0x26 = none := by decide
          rw [hdigit]
          cases n <;> exact foldl_digits_none radix s
        · exact ih _ h
  rw [fromStrRadix]
  have hdigits : 0x26 ∈ (if s.head? = some 0x2b then s.drop 1 else s) := by
    split_ifs with hplus
    · cases s with
      | nil => cases h
      | cons b s =>
          obtain rfl := Option.some.inj hplus
          rcases List.mem_cons.mp h with hb | h
          · cases hb
          · exact h
    · exact h
  split
  · rfl
  · exact hfold _ _ hdigits

/-- What is decoded holds no other ampersand. -/
theorem reference_ampersand {ent : Bytes} {c : Char} (h : reference ent = some c) :
    0x26 ∉ ent := by
  have hnum : ∀ (radix k : Nat), 0x26 ∉ ent.take k → fromStrRadix radix (ent.drop k) ≠ none →
      0x26 ∉ ent := by
    intro radix k htake hdrop hmem
    rw [← List.take_append_drop k ent, List.mem_append] at hmem
    exact hdrop (fromStrRadix_ampersand (hmem.resolve_left htake))
  have htake : ∀ p : Bytes, p.isPrefixOf ent = true → 0x26 ∉ p → 0x26 ∉ ent.take p.length := by
    intro p hp hnot
    obtain ⟨u, rfl⟩ := List.isPrefixOf_iff_prefix.mp hp
    rwa [List.take_left]
  rw [reference] at h
  split_ifs at h with h₁ h₂ h₃ h₄ h₅ hhex hdec
  · rw [h₁]; decide
  · rw [h₂]; decide
  · rw [h₃]; decide
  · rw [h₄]; decide
  · rw [h₅]; decide
  · refine hnum 16 2 ?_ (fun hnone => by rw [hnone] at h; cases h)
    rcases hhex with hhex | hhex
    · exact htake _ hhex (by decide)
    · exact htake _ hhex (by decide)
  · exact hnum 10 1 (htake _ hdec (by decide)) (fun hnone => by rw [hnone] at h; cases h)

theorem length_takeWhile_append {p : UInt8 → Bool} {a u : Bytes} {b : UInt8}
    (ha : ∀ x ∈ a, p x = true) (hb : p b = false) : ((a ++ b :: u).takeWhile p).length = a.length := by
  rw [List.takeWhile_append_of_pos ha, List.takeWhile_cons_of_neg (by rw [hb]; decide),
    List.append_nil]

/-- Where a search stops. -/
theorem split_at {p : UInt8 → Bool} {t : Bytes} (h : (t.takeWhile p).length ≠ t.length) :
    ∃ b u, t = t.takeWhile p ++ b :: u ∧ p b = false := by
  have hsplit := List.takeWhile_append_dropWhile (p := p) (l := t)
  cases hd : t.dropWhile p with
  | nil =>
      rw [hd, List.append_nil] at hsplit
      exact absurd (congrArg List.length hsplit) h
  | cons b u =>
      have hne : t.dropWhile p ≠ [] := by
        rw [hd]
        exact List.cons_ne_nil _ _
      have hhead := List.head_dropWhile_not p hne
      simp only [hd, List.head_cons] at hhead
      rw [hd] at hsplit
      exact ⟨b, u, hsplit.symm, hhead⟩

/-- The semicolon that ends an entity, if it comes in the window. -/
theorem window_cases (u : Bytes) :
    ((((0x26 :: u).take (min (0x26 :: u).length 12)).takeWhile (· != 0x3b)).length =
        ((0x26 :: u).take (min (0x26 :: u).length 12)).length) ∨
      ∃ e u', u = e ++ 0x3b :: u' ∧
        (((0x26 :: u).take (min (0x26 :: u).length 12)).takeWhile (· != 0x3b)).length =
          e.length + 1 ∧
        e.length + 1 ≠ ((0x26 :: u).take (min (0x26 :: u).length 12)).length := by
  have hmin : (0x26 :: u).take (min (0x26 :: u).length 12) = 0x26 :: u.take 11 := by
    rcases Nat.le_total (0x26 :: u).length 12 with h | h
    · rw [min_eq_left h, List.take_length, List.take_of_length_le]
      rw [List.length_cons] at h
      omega
    · rw [min_eq_right h, List.take_succ_cons]
  rw [hmin, List.takeWhile_cons_of_pos (by decide), List.length_cons, List.length_cons]
  by_cases h : ((u.take 11).takeWhile (· != 0x3b)).length = (u.take 11).length
  · exact .inl (congrArg (· + 1) h)
  · obtain ⟨b, r, hr, hb⟩ := split_at h
    rw [bne_eq_false_iff_eq] at hb
    subst hb
    refine .inr ⟨(u.take 11).takeWhile (· != 0x3b), r ++ u.drop 11, ?_, rfl, fun heq => ?_⟩
    · calc u = u.take 11 ++ u.drop 11 := (List.take_append_drop 11 u).symm
        _ = ((u.take 11).takeWhile (· != 0x3b) ++ 0x3b :: r) ++ u.drop 11 := by rw [← hr]
        _ = _ := by rw [List.append_assoc, List.cons_append]
    · exact h (Nat.succ.inj heq)

/-- Decoding goes through, or an ampersand stops it. -/
theorem decodeRest_spec {fuel : Nat} {rest : Bytes} (hfuel : rest.length < fuel)
    (ht : IsText rest) :
    (straddles rest = true ∧ decodeRest fuel rest = .error .panics) ∨
      straddles rest = false ∧ ∃ out, decodeRest fuel rest = .ok out := by
  induction fuel generalizing rest with
  | zero => exact absurd hfuel (Nat.not_lt_zero _)
  | succ fuel ih =>
      rw [decodeRest]
      have hnot : (0x26 : UInt8) ∉ rest.takeWhile (· != 0x26) := fun hmem =>
        absurd (List.mem_takeWhile_imp hmem) (by decide)
      by_cases hp : (rest.takeWhile (· != 0x26)).length = rest.length
      · -- there is no ampersand
        have hall : rest.takeWhile (· != 0x26) = rest :=
          (List.takeWhile_prefix _).eq_of_length hp
        rw [hall] at hnot
        refine .inr ⟨?_, rest, by rw [if_pos hp]⟩
        have hstr := straddles_append hnot []
        rwa [List.append_nil] at hstr
      · obtain ⟨b, u, hrest, hb⟩ := split_at hp
        rw [bne_eq_false_iff_eq] at hb
        subst hb
        generalize rest.takeWhile (· != 0x26) = a at hp hnot hrest
        subst hrest
        obtain ⟨ha, hamp, hu⟩ := Utf8.isText_append_cons (by decide) ht
        have hlen : u.length < fuel := by
          rw [List.length_append, List.length_cons] at hfuel
          omega
        have hstr : straddles (a ++ 0x26 :: u) = (!isBoundary (u.drop 11) || straddles u) := by
          rw [straddles_append hnot, straddles, beq_self_eq_true, Bool.true_and]
        rw [if_neg hp, slice_ok (by simp) ht (by rwa [List.drop_left]), List.take_left,
          sliceFrom_ok (by simp) (by rwa [List.drop_left]), List.drop_left]
        simp only [bind, Except.bind]
        have hdrop : (0x26 :: u).drop (min (0x26 :: u).length 12) = u.drop 11 := by
          rcases Nat.le_total (0x26 :: u).length 12 with h | h
          · rw [min_eq_left h, List.drop_length, List.drop_eq_nil_of_le]
            rw [List.length_cons] at h
            omega
          · rw [min_eq_right h, List.drop_succ_cons]
        cases hbound : isBoundary (u.drop 11) with
        | false =>
            left
            rw [hstr, hbound, slice, if_neg (by rw [hdrop, hbound]; simp)]
            exact ⟨rfl, rfl⟩
        | true =>
            rw [slice, if_pos ⟨min_le_left _ _, hamp.isBoundary, by rw [hdrop, hbound]⟩, hstr,
              hbound, Bool.not_true, Bool.false_or]
            dsimp only
            rcases window_cases u with hsemi | ⟨e, u', rfl, hsemi, hne⟩
            · rw [if_pos hsemi, sliceFrom_one hu]
              dsimp only
              rcases ih hlen hu with ⟨hs, hrec⟩ | ⟨hs, out, hrec⟩
              · exact .inl ⟨hs, by rw [hrec]⟩
              · exact .inr ⟨hs, _, by rw [hrec]⟩
            · obtain ⟨he, hsemiText, hu'⟩ := Utf8.isText_append_cons (by decide) hu
              have hent : slice ((0x26 :: (e ++ 0x3b :: u')).drop 1) e.length = .ok e := by
                have hslice := slice_ok (t := e ++ 0x3b :: u') (k := e.length) (by simp) hu
                  (by rwa [List.drop_left])
                rwa [List.take_left] at hslice
              rw [hsemi, if_neg hne, Nat.add_sub_cancel, hent]
              dsimp only
              cases href : reference e with
              | some c =>
                  have hdropSemi : (0x26 :: (e ++ 0x3b :: u')).drop (e.length + 1 + 1) = u' := by
                    rw [List.drop_succ_cons, List.drop_append, List.drop_eq_nil_of_le (by omega),
                      Nat.add_sub_cancel_left]
                    rfl
                  dsimp only
                  rw [sliceFrom_ok (by simp) (by rwa [hdropSemi]), hdropSemi,
                    straddles_append (reference_ampersand href)]
                  dsimp only
                  have hstep : straddles (0x3b :: u') = straddles u' := rfl
                  rw [List.length_append, List.length_cons] at hlen
                  rw [hstep]
                  rcases ih (by omega) hu' with ⟨hs, hrec⟩ | ⟨hs, out, hrec⟩
                  · exact .inl ⟨hs, by rw [hrec]⟩
                  · exact .inr ⟨hs, _, by rw [hrec]⟩
              | none =>
                  dsimp only
                  rw [sliceFrom_one hu]
                  dsimp only
                  rcases ih hlen hu with ⟨hs, hrec⟩ | ⟨hs, out, hrec⟩
                  · exact .inl ⟨hs, by rw [hrec]⟩
                  · exact .inr ⟨hs, _, by rw [hrec]⟩

theorem decodeEntities_iff {v : Bytes} (hv : IsText v) :
    (straddles v = true ∧ decodeEntities v = .error .panics) ∨
      straddles v = false ∧ ∃ out, decodeEntities v = .ok out :=
  decodeRest_spec (Nat.lt_succ_self _) hv

/-! ## Attributes -/

theorem drop_takeWhile (p : UInt8 → Bool) (t : Bytes) :
    t.drop (t.takeWhile p).length = t.dropWhile p := by
  have hsplit := List.takeWhile_append_dropWhile (p := p) (l := t)
  calc t.drop (t.takeWhile p).length
      = (t.takeWhile p ++ t.dropWhile p).drop (t.takeWhile p).length := by rw [hsplit]
    _ = t.dropWhile p := List.drop_left

theorem take_takeWhile (p : UInt8 → Bool) (t : Bytes) :
    t.take (t.takeWhile p).length = t.takeWhile p := by
  have hsplit := List.takeWhile_append_dropWhile (p := p) (l := t)
  calc t.take (t.takeWhile p).length
      = (t.takeWhile p ++ t.dropWhile p).take (t.takeWhile p).length := by rw [hsplit]
    _ = t.takeWhile p := List.take_left

theorem slice_takeWhile {p : UInt8 → Bool} {t : Bytes} (ht : IsText t)
    (hd : IsText (t.dropWhile p)) : slice t (t.takeWhile p).length = .ok (t.takeWhile p) := by
  rw [slice_ok (List.takeWhile_prefix p).length_le ht (by rwa [drop_takeWhile]), take_takeWhile]

theorem isWs_ascii (b : UInt8) (h : isWs b = true) : isAscii b = true := by
  have hall : ∀ b ∈ lit " \t\n\r\x0c", isAscii b = true := by simp [lit_space, isAscii]
  exact hall b (of_decide_eq_true h)

theorem isNameByte_ascii (b : UInt8) (h : isNameByte b = true) : isAscii b = true := by
  simp only [isNameByte, isAlphabetic, isDigit, Bool.or_eq_true, decide_eq_true_eq, beq_iff_eq] at h
  rw [isAscii, decide_eq_true_eq, UInt8.lt_iff_toNat_lt]
  have hle : ∀ {x y : UInt8}, x ≤ y → x.toNat ≤ y.toNat := fun h => UInt8.le_iff_toNat_le.mp h
  rcases h with (((⟨-, h⟩ | ⟨-, h⟩) | ⟨-, h⟩) | rfl) | rfl
  · exact lt_of_le_of_lt (hle h) (by decide)
  · exact lt_of_le_of_lt (hle h) (by decide)
  · exact lt_of_le_of_lt (hle h) (by decide)
  · decide
  · decide

theorem not_isAttrByte_ascii (b : UInt8) (h : isAttrByte b = false) : isAscii b = true := by
  simp only [isAttrByte, Bool.and_eq_false_iff, Bool.not_eq_false', bne_eq_false_iff_eq] at h
  rcases h with ((h | rfl) | rfl) | rfl
  · exact isWs_ascii b h
  · decide
  · decide
  · decide

theorem isText_tail {b : UInt8} {t : Bytes} (hb : isAscii b = true) (h : IsText (b :: t)) :
    IsText t := (Utf8.isText_append_cons (t := []) hb h).2.2

/-- A value goes through, and what is left of a text is one. -/
theorem attrValue_ok {t : Bytes} (ht : IsText t) : ∃ v rest, attrValue t = .ok (v, rest) ∧
    IsText v ∧ IsText rest ∧ rest.length ≤ t.length := by
  rw [attrValue]
  by_cases heq : t.head? = some 0x3d
  · rw [if_pos heq]
    cases t with
    | nil => cases heq
    | cons b t =>
        obtain rfl := Option.some.inj heq
        have hskip := Utf8.isText_dropWhile_ascii isWs_ascii (isText_tail (by decide) ht)
        have hlen : (t.dropWhile isWs).length ≤ t.length := (List.dropWhile_suffix isWs).length_le
        simp only [List.drop_succ_cons, List.drop_zero]
        cases hd : t.dropWhile isWs with
        | nil =>
            refine ⟨[], [], ?_, Utf8.isText_nil, Utf8.isText_nil, Nat.zero_le _⟩
            rfl
        | cons q u =>
            rw [hd] at hskip hlen
            rw [List.length_cons] at hlen
            dsimp only
            split_ifs with hq
            · have hstop : ∀ b : UInt8, (b != q) = false → isAscii b = true := by
                intro b hb
                rw [bne_eq_false_iff_eq] at hb
                subst hb
                rcases hq with rfl | rfl
                · decide
                · decide
              have hqa : isAscii q = true := hstop q (by simp)
              have hu := isText_tail hqa hskip
              obtain ⟨hv, hrest⟩ := Utf8.isText_dropWhile hstop hu
              rw [slice_takeWhile hu hrest]
              refine ⟨_, _, rfl, hv, ?_, ?_⟩
              · rw [← List.drop_drop, drop_takeWhile]
                cases hc : u.dropWhile (· != q) with
                | nil => exact Utf8.isText_nil
                | cons c r =>
                    have hne : u.dropWhile (· != q) ≠ [] := by
                      rw [hc]
                      exact List.cons_ne_nil _ _
                    have hhead := List.head_dropWhile_not (· != q) hne
                    simp only [hc, List.head_cons] at hhead
                    rw [hc] at hrest
                    exact isText_tail (hstop c hhead) hrest
              · rw [List.length_drop, List.length_cons]
                omega
            · have hstop : ∀ b : UInt8, (!isWs b && b != 0x3e) = false → isAscii b = true := by
                intro b hb
                rw [Bool.and_eq_false_iff, Bool.not_eq_false', bne_eq_false_iff_eq] at hb
                rcases hb with hb | rfl
                · exact isWs_ascii b hb
                · decide
              obtain ⟨hv, hrest⟩ := Utf8.isText_dropWhile hstop hskip
              rw [slice_takeWhile hskip hrest]
              refine ⟨_, _, rfl, hv, by rwa [drop_takeWhile], ?_⟩
              rw [List.length_drop, List.length_cons, List.length_cons]
              omega
  · rw [if_neg heq]
    exact ⟨_, _, rfl, Utf8.isText_nil, ht, le_rfl⟩

/-- Every value decoded. -/
def decodeAttrs (decode : Bytes → Run Bytes) : List (Bytes × Bytes) → Run (List (Bytes × Bytes))
  | [] => .ok []
  | a :: attrs => do
      let value ← decode a.2
      let attrs ← decodeAttrs decode attrs
      .ok ((a.1, value) :: attrs)

/-- The value as it is written. -/
def asWritten (v : Bytes) : Run Bytes := .ok v

/-- The attributes of a tag go through as they are written, and decoded they are
those, each decoded. -/
theorem attributes_spec {fuel : Nat} {t : Bytes} (hfuel : t.length < fuel) (ht : IsText t) :
    ∃ attrs rest, attributes asWritten fuel t = .ok (attrs, rest) ∧ IsText (rest.getD []) ∧
      (rest.getD []).length ≤ t.length ∧ (∀ a ∈ attrs, IsText a.2) ∧
      ∀ decode, attributes decode fuel t = (decodeAttrs decode attrs).map (fun as => (as, rest)) := by
  induction fuel generalizing t with
  | zero => exact absurd hfuel (Nat.not_lt_zero _)
  | succ fuel ih =>
      have hskipAscii : ∀ b : UInt8, (isWs b || b == 0x2f) = true → isAscii b = true := by
        intro b hb
        rw [Bool.or_eq_true, beq_iff_eq] at hb
        rcases hb with hb | rfl
        · exact isWs_ascii b hb
        · decide
      have hskip := Utf8.isText_dropWhile_ascii hskipAscii ht
      have hlen : (t.dropWhile (fun b => isWs b || b == 0x2f)).length ≤ t.length :=
        (List.dropWhile_suffix _).length_le
      simp only [attributes]
      cases hd : t.dropWhile (fun b => isWs b || b == 0x2f) with
      | nil => exact ⟨[], none, rfl, Utf8.isText_nil, Nat.zero_le _, nofun, fun _ => rfl⟩
      | cons b u =>
          rw [hd] at hskip hlen
          rw [List.length_cons] at hlen
          dsimp only
          by_cases hgt : b = 0x3e
          · subst hgt
            simp only [if_pos]
            exact ⟨[], some u, rfl, isText_tail (by decide) hskip, by rw [Option.getD_some]; omega,
              nofun, fun _ => rfl⟩
          · simp only [if_neg hgt]
            by_cases hk : ((b :: u).takeWhile isAttrByte).length = 0
            · -- a lone equals sign
              have hb : isAttrByte b = false := by
                rw [← Bool.not_eq_true]
                intro hb
                rw [List.takeWhile_cons_of_pos hb] at hk
                cases hk
              obtain ⟨attrs, rest, hraw, hrest, hle, hattrs, hdecode⟩ :=
                ih (by omega) (isText_tail (not_isAttrByte_ascii b hb) hskip)
              simp only [if_pos hk]
              exact ⟨attrs, rest, hraw, hrest, by omega, hattrs, hdecode⟩
            · simp only [if_neg hk]
              obtain ⟨-, hafter⟩ := Utf8.isText_dropWhile not_isAttrByte_ascii hskip
              have hblank := Utf8.isText_dropWhile_ascii isWs_ascii hafter
              obtain ⟨v, rest, hvalue, hv, hrest, hle⟩ := attrValue_ok hblank
              have hshort : ((b :: u).dropWhile isAttrByte).length + 1 ≤ (b :: u).length := by
                rw [← drop_takeWhile, List.length_drop]
                have hpre := (List.takeWhile_prefix (p := isAttrByte) (l := b :: u)).length_le
                omega
              have hsuf : (((b :: u).dropWhile isAttrByte).dropWhile isWs).length ≤
                  ((b :: u).dropWhile isAttrByte).length := (List.dropWhile_suffix _).length_le
              rw [List.length_cons] at hshort
              obtain ⟨attrs, rest', hraw, hrest', hle', hattrs, hdecode⟩ := ih (t := rest) (by omega) hrest
              rw [slice_takeWhile hskip hafter, drop_takeWhile, hvalue]
              simp only [bind, Except.bind]
              refine ⟨(lower ((b :: u).takeWhile isAttrByte), v) :: attrs, rest', ?_, hrest', by omega,
                ?_, fun decode => ?_⟩
              · rw [hraw]
                rfl
              · rw [List.forall_mem_cons]
                exact ⟨hv, hattrs⟩
              · rw [decodeAttrs, hdecode]
                simp only [bind, Except.bind]
                cases decode v with
                | error e => rfl
                | ok w =>
                    dsimp only
                    cases decodeAttrs decode attrs with
                    | error e => rfl
                    | ok as => rfl

/-! ## Tags -/

theorem find_spec {needle t u : Bytes} (h : find needle t = some u) :
    u <:+ t ∧ needle.isPrefixOf u = true := by
  induction t with
  | nil => cases h
  | cons b t ih =>
      rw [find] at h
      split_ifs at h with hp
      · obtain rfl := Option.some.inj h
        exact ⟨List.suffix_refl _, hp⟩
      · obtain ⟨hs, hu⟩ := ih h
        exact ⟨hs.trans (List.suffix_cons b t), hu⟩

theorem findCi_spec {needle t u : Bytes} (h : findCi needle t = some u) :
    u <:+ t ∧ (lower needle).isPrefixOf (lower u) = true := by
  induction t with
  | nil => cases h
  | cons b t ih =>
      rw [findCi] at h
      split_ifs at h with hp
      · obtain rfl := Option.some.inj h
        exact ⟨List.suffix_refl _, hp⟩
      · obtain ⟨hs, hu⟩ := ih h
        exact ⟨hs.trans (List.suffix_cons b t), hu⟩

/-- After an ASCII pattern a text goes on, and it is shorter. -/
theorem skipPast_spec {needle t : Bytes} (hne : needle ≠ [])
    (hascii : ∀ b ∈ needle, isAscii b = true) (ht : IsText t) :
    IsText (skipPast needle t) ∧ (skipPast needle t).length ≤ t.length - 1 := by
  rw [skipPast]
  cases hf : find needle t with
  | none => exact ⟨Utf8.isText_nil, Nat.zero_le _⟩
  | some u =>
      obtain ⟨⟨a, rfl⟩, hp⟩ := find_spec hf
      obtain ⟨r, rfl⟩ := List.isPrefixOf_iff_prefix.mp hp
      dsimp only
      rw [List.drop_left]
      cases needle with
      | nil => exact absurd rfl hne
      | cons b needle =>
          rw [List.cons_append] at ht
          have hrest := (Utf8.isText_append_cons (hascii b List.mem_cons_self) ht).2.2
          refine ⟨Utf8.isText_of_ascii (fun x hx => hascii x (List.mem_cons_of_mem _ hx)) hrest, ?_⟩
          simp only [List.length_append, List.length_cons]
          omega

theorem lowerByte_lt {b : UInt8} (h : lowerByte b = 0x3c) : isAscii b = true := by
  rw [lowerByte] at h
  split_ifs at h with hb
  · rw [isAscii, decide_eq_true_eq]
    exact UInt8.lt_of_le_of_lt hb.2 (by decide)
  · subst h
    decide

/-- Where an end tag is found, a text may be cut. -/
theorem findCi_text {name t u : Bytes} (ht : IsText t) (h : findCi (lit "</" ++ name) t = some u) :
    IsText u ∧ u.length ≤ t.length := by
  obtain ⟨hs, hp⟩ := findCi_spec h
  refine ⟨?_, hs.length_le⟩
  obtain ⟨a, rfl⟩ := hs
  cases u with
  | nil => exact Utf8.isText_nil
  | cons b u =>
      have hb : lowerByte b = 0x3c := by
        have hpre := List.isPrefixOf_iff_prefix.mp hp
        rw [lit_close] at hpre
        exact ((List.cons_prefix_cons.mp hpre).1).symm
      exact (Utf8.isText_append_cons (lowerByte_lt hb) ht).2.1

theorem isText_prefix {needle t : Bytes} (hascii : ∀ b ∈ needle, isAscii b = true)
    (hp : needle.isPrefixOf t = true) (ht : IsText t) :
    IsText (t.drop needle.length) ∧ needle.length ≤ t.length := by
  obtain ⟨r, rfl⟩ := List.isPrefixOf_iff_prefix.mp hp
  rw [List.drop_left, List.length_append]
  exact ⟨Utf8.isText_of_ascii hascii ht, Nat.le_add_right _ _⟩

theorem isText_afterRaw {tag : Tag} {rest : Bytes} (h : IsText rest) :
    IsText (tag.afterRaw rest) ∧ (tag.afterRaw rest).length ≤ rest.length := by
  rw [Tag.afterRaw]
  split_ifs with hraw
  · cases hf : findCi (lit "</" ++ tag.name) rest with
    | none => exact ⟨Utf8.isText_nil, Nat.zero_le _⟩
    | some u => exact findCi_text h hf
  · exact ⟨h, le_rfl⟩

/-- A tag, and what is left after it. -/
def decodeTag (decode : Bytes → Run Bytes) (t : Tag) : Run Tag :=
  (decodeAttrs decode t.attrs).map (fun attrs => { t with attrs })

/-- A tag goes through as it is written, and decoded it is that one, decoded. -/
theorem readTag_spec {offset : Nat} {t : Bytes} (ht : IsText t) :
    ∃ r, readTag asWritten offset t = .ok r ∧
      (∀ tag rest, r = some (tag, rest) → IsText (rest.getD []) ∧ (rest.getD []).length ≤ t.length ∧
        ∀ a ∈ tag.attrs, IsText a.2) ∧
      ∀ decode, readTag decode offset t =
        match r with
        | none => .ok none
        | some (tag, rest) => (decodeTag decode tag).map (fun tag => some (tag, rest)) := by
  have hnamed : IsText (if t.head? = some 0x2f then t.drop 1 else t) ∧
      (if t.head? = some 0x2f then t.drop 1 else t).length ≤ t.length := by
    split_ifs with hslash
    · cases t with
      | nil => cases hslash
      | cons c t =>
          obtain rfl := Option.some.inj hslash
          exact ⟨isText_tail (by decide) ht, by simp⟩
    · exact ⟨ht, le_rfl⟩
  simp only [readTag]
  generalize (if t.head? = some 0x2f then t.drop 1 else t) = named at hnamed
  obtain ⟨hnamed, hshort⟩ := hnamed
  cases hname : named.head?.any isAlphabetic with
  | false => exact ⟨none, rfl, nofun, fun _ => rfl⟩
  | true =>
      have hafter := Utf8.isText_dropWhile_ascii isNameByte_ascii hnamed
      have hafterLen : (named.dropWhile isNameByte).length ≤ named.length :=
        (List.dropWhile_suffix _).length_le
      obtain ⟨attrs, rest, hraw, hrest, hle, hattrs, hdecode⟩ :=
        @attributes_spec (named.length + 1) _ (by omega) hafter
      have htrue : ¬ (true = false) := by decide
      simp only [if_neg htrue]
      rw [slice_takeWhile hnamed hafter, drop_takeWhile, hraw]
      simp only [bind, Except.bind]
      refine ⟨_, rfl, ?_, fun decode => ?_⟩
      · intro tag rest' h
        obtain ⟨rfl, rfl⟩ := Prod.mk.inj (Option.some.inj h)
        exact ⟨hrest, by omega, hattrs⟩
      · rw [hdecode]
        simp only [decodeTag]
        cases decodeAttrs decode attrs with
        | error e => rfl
        | ok as => rfl

/-- What is left after a piece. -/
def Piece.rest : Piece → Bytes
  | .text => []
  | .markup rest => rest
  | .tag _ rest => rest.getD []

/-- The text after a `<` that is searched for. -/
theorem dropWhile_lt {t u : Bytes} {b : UInt8} (h : t.dropWhile (· != 0x3c) = b :: u) : b = 0x3c := by
  have hne : t.dropWhile (· != 0x3c) ≠ [] := by
    rw [h]
    exact List.cons_ne_nil _ _
  have hhead := List.head_dropWhile_not (· != 0x3c) hne
  simp only [h, List.head_cons] at hhead
  exact bne_eq_false_iff_eq.mp hhead

/-- What comes next goes through as it is written, and what is left is shorter. -/
theorem nextPiece_spec {n : Nat} {t : Bytes} (ht : IsText t) :
    ∃ r, nextPiece asWritten n t = .ok r ∧ IsText r.rest ∧ (t = [] ∨ r.rest.length < t.length) ∧
      (∀ tag rest, r = .tag tag rest → ∀ a ∈ tag.attrs, IsText a.2) ∧
      ∀ decode, nextPiece decode n t =
        match r with
        | .tag tag rest => (decodeTag decode tag).map (fun tag => .tag tag rest)
        | r => .ok r := by
  have hlt : ∀ b : UInt8, (b != 0x3c) = false → isAscii b = true := by
    intro b hb
    rw [bne_eq_false_iff_eq] at hb
    subst hb
    decide
  obtain ⟨-, hopen⟩ := Utf8.isText_dropWhile hlt ht
  have hlen : (t.dropWhile (· != 0x3c)).length ≤ t.length := (List.dropWhile_suffix _).length_le
  simp only [nextPiece]
  cases hd : t.dropWhile (· != 0x3c) with
  | nil =>
      refine ⟨.text, rfl, Utf8.isText_nil, ?_, (fun _ _ h => by cases h), fun _ => rfl⟩
      cases t with
      | nil => exact .inl rfl
      | cons c t => exact .inr (Nat.succ_pos _)
  | cons b u =>
      obtain rfl := dropWhile_lt hd
      rw [hd] at hopen hlen
      rw [List.length_cons] at hlen
      have hu := isText_tail (by decide) hopen
      dsimp only
      by_cases hcomment : (lit "<!--").isPrefixOf (0x3c :: u) = true
      · obtain ⟨hdrop, -⟩ := isText_prefix (by simp [lit_comment, isAscii]) hcomment hopen
        have hfour : (lit "<!--").length = 4 := by rw [lit_comment]; rfl
        rw [hfour] at hdrop
        obtain ⟨hskip, hle⟩ := @skipPast_spec (lit "-->") _ (by simp [lit_commentEnd])
          (by simp [lit_commentEnd, isAscii]) hdrop
        simp only [if_pos hcomment]
        refine ⟨_, rfl, hskip, .inr ?_, (fun _ _ h => by cases h), fun _ => rfl⟩
        simp only [List.length_drop, List.length_cons] at hle
        simp only [Piece.rest]
        omega
      · simp only [if_neg hcomment]
        by_cases hmarkup : (lit "<!").isPrefixOf (0x3c :: u) = true ∨
            (lit "<?").isPrefixOf (0x3c :: u) = true
        · obtain ⟨hskip, hle⟩ := @skipPast_spec (lit ">") _ (by simp [lit_end])
            (by simp [lit_end, isAscii]) hopen
          simp only [if_pos hmarkup]
          refine ⟨_, rfl, hskip, .inr ?_, (fun _ _ h => by cases h), fun _ => rfl⟩
          rw [List.length_cons] at hle
          simp only [Piece.rest]
          omega
        · simp only [if_neg hmarkup]
          obtain ⟨r, hraw, htexts, hdecode⟩ := @readTag_spec (n - (u.length + 1)) _ hu
          rw [hraw]
          cases r with
          | none =>
              refine ⟨_, rfl, hu, .inr ?_, (fun _ _ h => by cases h), fun decode => ?_⟩
              · simp only [Piece.rest]
                omega
              · rw [hdecode]
                rfl
          | some r =>
              obtain ⟨tag, rest⟩ := r
              obtain ⟨hrest, hle, hattrs⟩ := htexts tag rest rfl
              refine ⟨_, rfl, hrest, .inr ?_, ?_, fun decode => ?_⟩
              · simp only [Piece.rest]
                omega
              · intro tag' rest' h
                obtain ⟨rfl, rfl⟩ := Piece.tag.inj h
                exact hattrs
              · rw [hdecode]
                dsimp only
                cases decodeTag decode tag with
                | error e => rfl
                | ok tag => rfl

theorem decodeTag_endsWalk {decode : Bytes → Run Bytes} {t t' : Tag}
    (h : decodeTag decode t = .ok t') :
    t'.endsWalk = t.endsWalk ∧ t'.afterRaw = t.afterRaw ∧ t'.offset = t.offset := by
  rw [decodeTag] at h
  cases hd : decodeAttrs decode t.attrs with
  | error e =>
      rw [hd] at h
      cases h
  | ok attrs =>
      rw [hd] at h
      obtain rfl := Except.ok.inj h
      exact ⟨rfl, rfl, rfl⟩

/-- Every tag decoded. -/
def decodeTags (decode : Bytes → Run Bytes) :
    List (Tag × Option Bytes) → Run (List (Tag × Option Bytes))
  | [] => .ok []
  | t :: tags => do
      let tag ← decodeTag decode t.1
      let tags ← decodeTags decode tags
      .ok ((tag, t.2) :: tags)

/-- The walk goes through with values as they are written, and decoded its tags
are those, each decoded. -/
theorem walk_spec {n fuel : Nat} {t : Bytes} (hfuel : t.length < fuel) (ht : IsText t) :
    ∃ tags, walk asWritten n fuel t = .ok tags ∧
      (∀ tag ∈ tags, ∀ a ∈ tag.1.attrs, IsText a.2) ∧
      ∀ decode, walk decode n fuel t = decodeTags decode tags := by
  induction fuel generalizing t with
  | zero => exact absurd hfuel (Nat.not_lt_zero _)
  | succ fuel ih =>
      obtain ⟨r, hraw, hrest, hlen, hattrs, hdecode⟩ := nextPiece_spec (n := n) ht
      simp only [walk, hraw, hdecode, bind, Except.bind]
      cases r with
      | text => exact ⟨[], rfl, nofun, fun _ => rfl⟩
      | markup rest =>
          simp only [Piece.rest] at hrest hlen
          rcases hlen with rfl | hlen
          · simp [nextPiece] at hraw
          · exact ih (by omega) hrest
      | tag tag rest =>
          have hattrs := hattrs tag rest rfl
          simp only [Piece.rest] at hrest hlen
          have hshort : (rest.getD []).length < fuel := by
            rcases hlen with rfl | hlen
            · simp [nextPiece] at hraw
            · omega
          dsimp only
          cases hends : tag.endsWalk with
          | true =>
              refine ⟨[(tag, rest)], rfl, by rw [List.forall_mem_singleton]; exact hattrs,
                fun decode => ?_⟩
              rw [decodeTags]
              cases htag : decodeTag decode tag with
              | error e => rfl
              | ok tag' =>
                  have hends' := (decodeTag_endsWalk htag).1.trans hends
                  simp only [Except.map, hends', if_pos]
                  rfl
          | false =>
              obtain ⟨hafter, hafterLen⟩ := @isText_afterRaw tag _ hrest
              obtain ⟨tags, htags, htext, hdec⟩ := ih (by omega) hafter
              refine ⟨(tag, rest) :: tags, ?_, ?_, fun decode => ?_⟩
              · rw [htags]
                rfl
              · rw [List.forall_mem_cons]
                exact ⟨hattrs, htext⟩
              · rw [decodeTags]
                cases htag : decodeTag decode tag with
                | error e => rfl
                | ok tag' =>
                    obtain ⟨hends', hraw', -⟩ := decodeTag_endsWalk htag
                    simp only [Except.map, hends'.trans hends, hraw', hdec]
                    rfl

/-! ## Scans -/

theorem decodeAttrs_iff {attrs : List (Bytes × Bytes)} (ht : ∀ a ∈ attrs, IsText a.2) :
    (attrs.any (fun a => straddles a.2) = true ∧ decodeAttrs decodeEntities attrs = .error .panics) ∨
      attrs.any (fun a => straddles a.2) = false ∧
        ∃ as, decodeAttrs decodeEntities attrs = .ok as := by
  induction attrs with
  | nil => exact .inr ⟨rfl, [], rfl⟩
  | cons a attrs ih =>
      rw [List.forall_mem_cons] at ht
      rw [List.any_cons, decodeAttrs]
      simp only [bind, Except.bind]
      rcases decodeEntities_iff ht.1 with ⟨hs, hd⟩ | ⟨hs, v, hd⟩
      · exact .inl ⟨by rw [hs]; rfl, by rw [hd]⟩
      · rw [hs, hd, Bool.false_or]
        dsimp only
        rcases ih ht.2 with ⟨hs', hd'⟩ | ⟨hs', as, hd'⟩
        · exact .inl ⟨hs', by rw [hd']⟩
        · exact .inr ⟨hs', _, by rw [hd']⟩

/-- A value of the tag stops its decoding. -/
def Tag.straddles (t : Tag) : Bool := t.attrs.any (fun a => Route.straddles a.2)

theorem decodeTags_iff {tags : List (Tag × Option Bytes)}
    (ht : ∀ tag ∈ tags, ∀ a ∈ tag.1.attrs, IsText a.2) :
    (tags.any (fun t => t.1.straddles) = true ∧
        decodeTags decodeEntities tags = .error .panics) ∨
      tags.any (fun t => t.1.straddles) = false ∧ ∃ ts, decodeTags decodeEntities tags = .ok ts := by
  induction tags with
  | nil => exact .inr ⟨rfl, [], rfl⟩
  | cons t tags ih =>
      rw [List.forall_mem_cons] at ht
      rw [List.any_cons, decodeTags, decodeTag, Tag.straddles]
      simp only [bind, Except.bind]
      rcases decodeAttrs_iff ht.1 with ⟨hs, hd⟩ | ⟨hs, v, hd⟩
      · exact .inl ⟨by rw [hs]; rfl, by rw [hd]; rfl⟩
      · rw [hs, hd, Bool.false_or]
        simp only [Except.map]
        rcases ih ht.2 with ⟨hs', hd'⟩ | ⟨hs', as, hd'⟩
        · exact .inl ⟨hs', by rw [hd']⟩
        · exact .inr ⟨hs', _, by rw [hd']⟩

/-- The tags of a text with their values as they are written, each with what is
left after it. -/
def tagsRead (s : Bytes) : List (Tag × Option Bytes) :=
  match walk asWritten s.length (s.length + 1) s with
  | .ok tags => tags
  | .error _ => []

theorem forEachTag_iff {s : Bytes} (hs : IsText s) :
    ((tagsRead s).any (fun t => t.1.straddles) = true ∧ forEachTag s = .error .panics) ∨
      (tagsRead s).any (fun t => t.1.straddles) = false ∧ ∃ ts, forEachTag s = .ok ts := by
  obtain ⟨tags, hraw, htexts, hdecode⟩ := walk_spec (n := s.length) (Nat.lt_succ_self _) hs
  have hread : tagsRead s = tags := by rw [tagsRead, hraw]
  rw [hread, forEachTag, hdecode]
  simp only [bind, Except.bind]
  rcases decodeTags_iff htexts with ⟨hs, hd⟩ | ⟨hs, ts, hd⟩
  · exact .inl ⟨hs, by rw [hd]⟩
  · exact .inr ⟨hs, _, by rw [hd]⟩

/-- The cut is on a character. -/
theorem isBoundary_cutAt {b : Bytes} (hb : IsText b) (k : Nat) :
    isBoundary (b.drop (cutAt b k)) = true := by
  induction k with
  | zero => exact hb.isBoundary
  | succ k ih =>
      rw [cutAt]
      split_ifs with hk
      · exact hk
      · exact ih

theorem isText_bounded {cfg : ScanConfig} {body : Bytes} (hb : IsText body) :
    IsText (bounded cfg body) := by
  rw [bounded]
  split_ifs with hlen
  · rw [← List.take_append_drop (cutAt body cfg.max_bytes) body] at hb
    refine (Utf8.isText_append ?_ hb).1
    rw [List.take_append_drop] at hb
    exact isBoundary_cutAt hb _
  · exact hb

/-- Decoding entities and scanning never spin, and they panic if and only if
twelve bytes after an ampersand, of a value that is decoded, a character goes
on. -/
theorem scan_panics_iff (cfg : ScanConfig) (body v : Bytes) (hbody : IsText body) (hv : IsText v) :
    (decodeEntities v ≠ .error .spins ∧
      (decodeEntities v = .error .panics ↔ straddles v = true)) ∧
    scan cfg body ≠ .error .spins ∧
      (scan cfg body = .error .panics ↔ (∃ doc, document cfg = .ok doc) ∧
        ∃ t ∈ tagsRead (bounded cfg body), ∃ a ∈ t.1.attrs, straddles a.2 = true) := by
  have hany : (∃ t ∈ tagsRead (bounded cfg body), ∃ a ∈ t.1.attrs, straddles a.2 = true) ↔
      (tagsRead (bounded cfg body)).any (fun t => t.1.straddles) = true := by
    simp only [List.any_eq_true, Tag.straddles]
  constructor
  · rcases decodeEntities_iff hv with ⟨hs, hd⟩ | ⟨hs, out, hd⟩
    · rw [hd, hs]
      exact ⟨nofun, fun _ => rfl, fun _ => rfl⟩
    · rw [hd, hs]
      exact ⟨nofun, nofun, nofun⟩
  · rw [hany, scan]
    cases hdoc : document cfg with
    | error e => exact ⟨nofun, nofun, fun h => nomatch h.1⟩
    | ok doc =>
        simp only [bind, Except.bind]
        rcases forEachTag_iff (@isText_bounded cfg _ hbody) with ⟨hs, hd⟩ | ⟨hs, ts, hd⟩
        · rw [hd, hs]
          exact ⟨nofun, fun _ => ⟨⟨doc, rfl⟩, rfl⟩, fun _ => rfl⟩
        · rw [hd, hs]
          exact ⟨nofun, nofun, fun h => nomatch h.2⟩

namespace Sample

def config : ScanConfig :=
  { document_url := "https://docs.example.com/guide"
    allowed_origins := ["https://docs.example.com"]
    max_bytes := DEFAULT_MAX_BYTES
    max_candidates := 512 }

/-- Ten letters after the ampersand, and a letter of two bytes. -/
def page : Bytes := lit "<a href='&abcdefghij\u00e9'>"

end Sample

open Route.Sample in
theorem scan_panics : decodeEntities (lit "&abcdefghij\u00e9") = .error .panics ∧
    scan config page = .error .panics :=
  ⟨by decide +kernel, rfl⟩

open Route.Sample in
theorem scan_panics_iff_page :
    scan config page = .error .panics ↔ (∃ doc, document config = .ok doc) ∧
      ∃ t ∈ tagsRead (bounded config page), ∃ a ∈ t.1.attrs, straddles a.2 = true :=
  (scan_panics_iff config page [] ⟨_, rfl⟩ Utf8.isText_nil).2.2

end Secdogie.Graph.Route
