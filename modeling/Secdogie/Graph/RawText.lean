/-
# `Secdogie.Graph.RawText` — where raw text ends

After the start tag of a raw-text element the scanner goes on where `</` and the
name of the element are found.  Its end tag is spelled like that and goes on
with a blank, a slash or `>`: where the search finds something else first, the
text after it is read as tags.

`raw_text_silent`: the tags that are read are outside of the raw text if and only
if what is found first is an end tag (or the text ends there), and then no
candidate is from within.
-/
import Secdogie.Graph.RouteCut

namespace Secdogie.Graph.Route

open Url (HttpsUrl Reject)
open Utf8 (isBoundary isAscii IsText)

/-! ## End tags -/

/-- A byte that ends the name of an end tag. -/
def endsName (b : UInt8) : Bool := isWs b || b == 0x2f || b == 0x3e

/-- What is left of a text begins with the end tag of an element. -/
def isEndTag (name u : Bytes) : Bool :=
  (lower (lit "</" ++ name)).isPrefixOf (lower u) && (u.drop (name.length + 2)).head?.any endsName

/-- What is left from the first end tag of an element. -/
def endTag (name : Bytes) : Bytes → Option Bytes
  | [] => none
  | b :: t => if isEndTag name (b :: t) then some (b :: t) else endTag name t

local instance lawful_raw : LawfulBEq Bytes := inferInstance

/-- The tag begins raw text. -/
def Tag.isRaw (t : Tag) : Bool := !t.isEnd && decide (t.name ∈ RAW_TEXT)

/-- An offset in a text of `n` bytes is in the raw text of a tag. -/
def InRaw (n : Nat) (x : Tag × Option Bytes) (o : Nat) : Prop :=
  x.1.isRaw = true ∧ ∃ rest, x.2 = some rest ∧ n - rest.length ≤ o ∧
    o < n - ((endTag x.1.name rest).getD []).length

/-- What the search for the end of raw text finds is not an end tag: something
follows the name that does not end it. -/
def NearMiss (x : Tag × Option Bytes) : Prop :=
  x.1.isRaw = true ∧ ∃ rest u b, x.2 = some rest ∧ findCi (lit "</" ++ x.1.name) rest = some u ∧
    (u.drop (x.1.name.length + 2)).head? = some b ∧ endsName b = false

instance (x : Tag × Option Bytes) : Decidable (NearMiss x) :=
  decidable_of_iff ((x.1.isRaw && x.2.any (fun rest =>
    (findCi (lit "</" ++ x.1.name) rest).any (fun u =>
      (u.drop (x.1.name.length + 2)).head?.any (fun b => !endsName b)))) = true) (by
    simp only [NearMiss, Bool.and_eq_true, Option.any_eq_true, Bool.not_eq_true']
    constructor
    · rintro ⟨hraw, rest, hrest, u, hu, b, hb, hends⟩
      exact ⟨hraw, rest, u, b, hrest, hu, hb, hends⟩
    · rintro ⟨hraw, rest, u, b, hrest, hu, hb, hends⟩
      exact ⟨hraw, rest, hrest, u, hu, b, hb, hends⟩)

theorem endTag_suffix {name t u : Bytes} (h : endTag name t = some u) : u <:+ t := by
  induction t with
  | nil => cases h
  | cons b t ih =>
      rw [endTag] at h
      split_ifs at h with hb
      · obtain rfl := Option.some.inj h
        exact List.suffix_refl _
      · exact (ih h).trans (List.suffix_cons b t)

/-- The first end tag is not before what the search finds. -/
theorem endTag_found {name t u : Bytes} (h : findCi (lit "</" ++ name) t = some u) :
    endTag name t = endTag name u := by
  induction t with
  | nil => cases h
  | cons b t ih =>
      rw [findCi] at h
      split_ifs at h with hp
      · obtain rfl := Option.some.inj h
        rfl
      · rw [endTag, isEndTag, Bool.eq_false_of_not_eq_true hp, Bool.false_and, if_neg (by decide)]
        exact ih h

theorem endTag_none {name t : Bytes} (h : findCi (lit "</" ++ name) t = none) :
    endTag name t = none := by
  induction t with
  | nil => rfl
  | cons b t ih =>
      rw [findCi] at h
      split_ifs at h with hp
      rw [endTag, isEndTag, Bool.eq_false_of_not_eq_true hp, Bool.false_and, if_neg (by decide)]
      exact ih h

/-- Where the search finds an end tag, that is the first one; elsewhere the first
one comes later. -/
theorem endTag_cases {name t u : Bytes} (h : findCi (lit "</" ++ name) t = some u) :
    (isEndTag name u = true ∧ endTag name t = some u) ∨
      isEndTag name u = false ∧ ((endTag name t).getD []).length < u.length := by
  rw [endTag_found h]
  obtain ⟨-, hp⟩ := findCi_spec h
  cases u with
  | nil =>
      rw [lit_close] at hp
      cases hp
  | cons b u =>
      rw [endTag]
      cases hend : isEndTag name (b :: u) with
      | true => exact .inl ⟨rfl, if_pos rfl⟩
      | false =>
          refine .inr ⟨rfl, ?_⟩
          rw [if_neg (by decide), List.length_cons, Nat.lt_succ_iff]
          cases hrec : endTag name u with
          | none => exact Nat.zero_le _
          | some v => exact (endTag_suffix hrec).length_le

/-! ## Names of raw-text elements -/

theorem rawName_spec : ∀ name ∈ RAW_TEXT, name ≠ [] ∧
    ∀ b ∈ name, 0x61 ≤ b ∧ b ≤ 0x7a := by decide +kernel

/-- A letter, of whatever case. -/
theorem isAlphabetic_lowerByte {b : UInt8} (h : 0x61 ≤ lowerByte b ∧ lowerByte b ≤ 0x7a) :
    isAlphabetic b = true := by
  rw [isAlphabetic, decide_eq_true_eq]
  rw [lowerByte] at h
  split_ifs at h with hb
  · exact .inl hb
  · exact .inr h

theorem lowerByte_eq {b d : UInt8} (h : lowerByte b = d) (hd : ¬ (0x61 ≤ d ∧ d ≤ 0x7a)) : b = d := by
  rw [lowerByte] at h
  split_ifs at h with hb
  · exfalso
    apply hd
    rw [← h, UInt8.le_iff_toNat_le, UInt8.le_iff_toNat_le, UInt8.toNat_add]
    have h₁ := UInt8.le_iff_toNat_le.mp hb.1
    have h₂ := UInt8.le_iff_toNat_le.mp hb.2
    have hA : (0x41 : UInt8).toNat = 65 := rfl
    have hZ : (0x5a : UInt8).toNat = 90 := rfl
    have ha : (0x61 : UInt8).toNat = 97 := rfl
    have hz : (0x7a : UInt8).toNat = 122 := rfl
    have hs : (0x20 : UInt8).toNat = 32 := rfl
    omega
  · exact h

/-- What the search for the end of raw text finds. -/
theorem close_spec {name t u : Bytes} (hname : name ∈ RAW_TEXT)
    (h : findCi (lit "</" ++ name) t = some u) :
    ∃ w, u = 0x3c :: 0x2f :: w ∧ name.isPrefixOf (lower w) = true ∧
      (∀ b ∈ w.take name.length, isAlphabetic b = true) ∧ name.length ≤ w.length := by
  obtain ⟨hne, hletters⟩ := rawName_spec name hname
  obtain ⟨-, hp⟩ := findCi_spec h
  have hlit := lit_close
  have hlower : lower name = name := by
    rw [lower]
    refine (List.map_congr_left (g := id) fun b hb => ?_).trans (List.map_id _)
    obtain ⟨hb, -⟩ := hletters b hb
    rw [lowerByte, if_neg, id]
    rintro ⟨-, hle⟩
    exact absurd (UInt8.le_trans hb hle) (by decide)
  have hneedle : lower (lit "</" ++ name) = 0x3c :: 0x2f :: name := by
    rw [lower, List.map_append, ← lower, ← lower, hlower, hlit]
    rfl
  rw [hneedle, List.isPrefixOf_iff_prefix] at hp
  obtain ⟨r, hr⟩ := hp
  cases u with
  | nil => cases hr
  | cons b₀ u =>
      cases u with
      | nil => cases (List.cons.inj hr).2
      | cons b₁ w =>
          simp only [lower, List.map_cons, List.cons_append, List.cons.injEq] at hr
          obtain ⟨h₀, h₁, hr⟩ := hr
          obtain rfl := lowerByte_eq h₀.symm (by decide)
          obtain rfl := lowerByte_eq h₁.symm (by decide)
          have hlen : name.length ≤ w.length := by
            have hle := congrArg List.length hr
            rw [List.length_append, List.length_map] at hle
            omega
          refine ⟨w, rfl, List.isPrefixOf_iff_prefix.mpr ⟨r, hr⟩, fun b hb => ?_, hlen⟩
          have htake : (w.take name.length).map lowerByte = name := by
            rw [List.map_take, ← hr, List.take_left]
          exact isAlphabetic_lowerByte (hletters _ (htake ▸ List.mem_map_of_mem hb))

/-! ## Offsets -/

/-- A tag is where its `<` is, and it ends later. -/
theorem nextPiece_offset {n : Nat} {t : Bytes} {tag : Tag} {rest : Option Bytes} (ht : IsText t)
    (hn : t.length ≤ n) (h : nextPiece asWritten n t = .ok (.tag tag rest)) :
    n - t.length ≤ tag.offset ∧ tag.offset < n - (rest.getD []).length := by
  simp only [nextPiece] at h
  have hlen : (t.dropWhile (· != 0x3c)).length ≤ t.length := (List.dropWhile_suffix _).length_le
  have hlt : ∀ b : UInt8, (b != 0x3c) = false → isAscii b = true := by
    intro b hb
    rw [bne_eq_false_iff_eq] at hb
    subst hb
    decide
  obtain ⟨-, hopen⟩ := Utf8.isText_dropWhile hlt ht
  cases hd : t.dropWhile (· != 0x3c) with
  | nil =>
      rw [hd] at h
      cases Except.ok.inj h
  | cons b u =>
      obtain rfl := dropWhile_lt hd
      rw [hd] at h hlen hopen
      rw [List.length_cons] at hlen
      dsimp only at h
      split_ifs at h
      · cases Except.ok.inj h
      · cases Except.ok.inj h
      obtain ⟨o, ho, h⟩ := run_bind h
      cases o with
      | none => cases Except.ok.inj h
      | some o =>
          obtain ⟨tag', rest'⟩ := o
          obtain ⟨rfl, rfl⟩ := Piece.tag.inj (Except.ok.inj h)
          obtain ⟨r, hr, htexts, -⟩ :=
            @readTag_spec (n - (u.length + 1)) _ (isText_tail (by decide) hopen)
          obtain rfl := Except.ok.inj (hr.symm.trans ho)
          obtain ⟨-, hle, -⟩ := htexts tag' rest' rfl
          have hoffset : tag'.offset = n - (u.length + 1) := by
            simp only [readTag] at ho
            generalize (if u.head? = some 0x2f then u.drop 1 else u) = named at ho
            split_ifs at ho
            · cases Except.ok.inj ho
            obtain ⟨name, -, ho⟩ := run_bind ho
            obtain ⟨⟨attrs, r⟩, -, ho⟩ := run_bind ho
            obtain ⟨rfl, -⟩ := Prod.mk.inj (Option.some.inj (Except.ok.inj ho))
            rfl
          omega

/-- The tags of a text come in their order, each after what is left of the one
before. -/
theorem walk_order {n fuel : Nat} {t : Bytes} {tags : List (Tag × Option Bytes)}
    (hfuel : t.length < fuel) (ht : IsText t) (hn : t.length ≤ n)
    (h : walk asWritten n fuel t = .ok tags) :
    (∀ y ∈ tags, n - t.length ≤ y.1.offset ∧ y.1.offset < n - (y.2.getD []).length) ∧
      ∀ x ∈ tags, IsText (x.2.getD []) ∧ (x.2.getD []).length ≤ n ∧
        ∃ fuel' more, (x.1.afterRaw (x.2.getD [])).length < fuel' ∧
          walk asWritten n fuel' (x.1.afterRaw (x.2.getD [])) = .ok more ∧
            (∀ y ∈ tags, y.1.offset < n - (x.2.getD []).length ∨ y ∈ more) ∧
              (x.1.endsWalk = false → ∀ y ∈ more, y ∈ tags) := by
  induction fuel generalizing t tags with
  | zero => exact absurd hfuel (Nat.not_lt_zero _)
  | succ fuel ih =>
      obtain ⟨r, hr, hrest, hlen, -, -⟩ := nextPiece_spec (n := n) ht
      simp only [walk, hr, bind, Except.bind] at h
      cases r with
      | text =>
          obtain rfl := Except.ok.inj h
          exact ⟨(fun _ h => by cases h), fun _ h => by cases h⟩
      | markup rest =>
          simp only [Piece.rest] at hrest hlen
          rcases hlen with rfl | hlen
          · simp [nextPiece] at hr
          · obtain ⟨hoffsets, horder⟩ := ih (by omega) hrest (by omega) h
            refine ⟨fun y hy => ?_, horder⟩
            obtain ⟨hle, hlt⟩ := hoffsets y hy
            exact ⟨by omega, hlt⟩
      | tag tag rest =>
          obtain ⟨hoffset, hend⟩ := nextPiece_offset ht hn hr
          simp only [Piece.rest] at hrest hlen
          have hshort : (rest.getD []).length < t.length := by
            rcases hlen with rfl | hlen
            · simp [nextPiece] at hr
            · exact hlen
          obtain ⟨hafter, hafterLen⟩ := @isText_afterRaw tag _ hrest
          obtain ⟨more, hmore, -, -⟩ := @walk_spec n fuel _ (by omega) hafter
          obtain ⟨hoffsets, horder⟩ := ih (by omega) hafter (by omega) hmore
          dsimp only at h
          cases hends : tag.endsWalk with
          | true =>
              rw [hends, if_pos rfl] at h
              obtain rfl := Except.ok.inj h
              simp only [List.mem_singleton, forall_eq]
              exact ⟨⟨hoffset, hend⟩, hrest, by omega, fuel, more, by omega, hmore, .inl hend,
                fun h => absurd (hends.symm.trans h) (by decide)⟩
          | false =>
              rw [hends, if_neg (by decide), hmore] at h
              obtain rfl := Except.ok.inj h
              simp only [List.forall_mem_cons]
              refine ⟨⟨⟨hoffset, hend⟩, fun y hy => ?_⟩, ⟨hrest, by omega, fuel, more, by omega,
                hmore, ⟨.inl hend, fun y hy => .inr hy⟩, fun _ y hy => List.mem_cons_of_mem _ hy⟩,
                fun x hx => ?_⟩
              · obtain ⟨hle, hlt⟩ := hoffsets y hy
                exact ⟨by omega, hlt⟩
              · obtain ⟨htext, hn', fuel', more', hfuel', hmore', hlater, hsub⟩ := horder x hx
                obtain ⟨hle, hlt⟩ := hoffsets x hx
                exact ⟨htext, hn', fuel', more', hfuel', hmore', ⟨.inl (by omega), hlater⟩,
                  fun hx' y hy => List.mem_cons_of_mem _ (hsub hx' y hy)⟩

/-- Where the search for the end of raw text stops, a tag is read, an end tag, and
it is the last if the text ends in it. -/
theorem walk_close {n fuel : Nat} {name t u : Bytes} {tags : List (Tag × Option Bytes)}
    (hname : name ∈ RAW_TEXT) (hfuel : u.length < fuel) (hu : IsText u)
    (hfind : findCi (lit "</" ++ name) t = some u) (h : walk asWritten n fuel u = .ok tags) :
    ∃ y more, tags = y :: more ∧ y.1.isEnd = true ∧ y.1.offset = n - u.length ∧
      (u.length = name.length + 2 → more = []) := by
  obtain ⟨w, rfl, -, hletters, hlen⟩ := close_spec hname hfind
  obtain ⟨hne, -⟩ := rawName_spec name hname
  have hhead : ¬ w.head?.any isAlphabetic = false := by
    cases w with
    | nil => exact absurd (List.eq_nil_of_length_eq_zero (Nat.le_zero.mp hlen)) hne
    | cons c w =>
        have hc : isAlphabetic c = true := by
          refine hletters c ?_
          rw [← Nat.succ_pred (fun hz => hne (List.eq_nil_of_length_eq_zero hz)),
            List.take_succ_cons]
          exact List.mem_cons_self
        rw [List.head?_cons, Option.any_some, hc]
        decide
  obtain ⟨r, hr, hrest, -, -, -⟩ := nextPiece_spec (n := n) hu
  have htag : ∃ tag rest, r = .tag tag rest ∧ tag.isEnd = true ∧
      tag.offset = n - (w.length + 2) ∧ (w.length = name.length → rest = none) := by
    simp only [nextPiece] at hr
    obtain ⟨o, ho, hr⟩ := run_bind hr
    simp only [readTag, List.head?_cons, if_true, List.drop_succ_cons, List.drop_zero,
      if_neg hhead] at ho
    obtain ⟨aname, -, ho⟩ := run_bind ho
    obtain ⟨⟨attrs, rest⟩, hattrs, ho⟩ := run_bind ho
    obtain rfl := Except.ok.inj ho
    obtain rfl := Except.ok.inj hr
    refine ⟨_, rest, rfl, by simp, by simp, fun hlast => ?_⟩
    have hall : w.dropWhile isNameByte = [] := by
      rw [List.dropWhile_eq_nil_iff]
      intro b hb
      rw [← List.take_of_length_le (Nat.le_of_eq hlast)] at hb
      rw [isNameByte, hletters b hb]
      rfl
    rw [drop_takeWhile, hall] at hattrs
    exact attributes_nil hattrs
  obtain ⟨tag, rest, rfl, hend, hoffset, hlast⟩ := htag
  cases fuel with
  | zero => exact absurd hfuel (Nat.not_lt_zero _)
  | succ fuel =>
      have hends : tag.endsWalk = false := by rw [Tag.endsWalk, hend]; rfl
      simp only [walk, hr, bind, Except.bind, hends, Bool.false_eq_true, if_false] at h
      split at h
      · cases h
      · next more hmore =>
          obtain rfl := Except.ok.inj h
          refine ⟨(tag, rest), more, rfl, hend, hoffset, fun hlen => ?_⟩
          obtain rfl := hlast (by simpa using hlen)
          rw [Option.getD_none, afterRaw_nil] at hmore
          exact walk_text List.not_mem_nil hmore

theorem walk_tagsRead {s : Bytes} (hs : IsText s) :
    walk asWritten s.length (s.length + 1) s = .ok (tagsRead s) := by
  obtain ⟨tags, hraw, -, -⟩ := walk_spec (n := s.length) (Nat.lt_succ_self _) hs
  rw [tagsRead, hraw]

theorem Tag.isRaw_endsWalk {t : Tag} (h : t.isRaw = true) : t.endsWalk = false := by
  rw [Tag.isRaw, Bool.and_eq_true, decide_eq_true_eq] at h
  have hplain : lit "plaintext" ∉ RAW_TEXT := by decide
  have hname : (t.name == lit "plaintext") = false := by
    rw [beq_eq_false_iff_ne]
    exact fun heq => hplain (heq ▸ h.2)
  rw [Tag.endsWalk, hname, Bool.and_false]

theorem Tag.afterRaw_isRaw {t : Tag} (h : t.isRaw = true) (rest : Bytes) :
    t.afterRaw rest = (findCi (lit "</" ++ t.name) rest).getD [] := by
  rw [Tag.isRaw, Bool.and_eq_true, Bool.not_eq_true', decide_eq_true_eq] at h
  rw [Tag.afterRaw, if_pos h]

theorem isEndTag_found {name t u : Bytes} (h : findCi (lit "</" ++ name) t = some u) :
    isEndTag name u = (u.drop (name.length + 2)).head?.any endsName := by
  rw [isEndTag, (findCi_spec h).2, Bool.true_and]

/-- A tag in raw text whose end is not missed is one in which the text ends. -/
theorem inRaw_last {s : Bytes} (hs : IsText s) {x y : Tag × Option Bytes} (hx : x ∈ tagsRead s)
    (hy : y ∈ tagsRead s) (hin : InRaw s.length x y.1.offset) (hmiss : ¬ NearMiss x) :
    y.1.isEnd = true ∧ y.1.offset + (x.1.name.length + 2) = s.length := by
  obtain ⟨hraw, rest, hrest, hfrom, hto⟩ := hin
  obtain ⟨-, horder⟩ := walk_order (Nat.lt_succ_self _) hs le_rfl (walk_tagsRead hs)
  obtain ⟨htext, hle, fuel, more, hfuel, hmore, hlater, -⟩ := horder x hx
  rw [hrest, Option.getD_some] at htext hle hfuel hmore hlater
  have hmem : y ∈ more := (hlater y hy).resolve_left (by omega)
  rw [Tag.afterRaw_isRaw hraw] at hfuel hmore
  cases hfind : findCi (lit "</" ++ x.1.name) rest with
  | none =>
      rw [hfind] at hmore
      obtain rfl := walk_text List.not_mem_nil hmore
      cases hmem
  | some u =>
      rw [hfind, Option.getD_some] at hmore hfuel
      obtain ⟨hu, hule⟩ := findCi_text htext hfind
      obtain ⟨hoffsets, -⟩ := walk_order hfuel hu (hule.trans hle) hmore
      rcases endTag_cases hfind with ⟨-, hend⟩ | ⟨hend, -⟩
      · -- the end tag is found, and the tag is after it
        rw [hend, Option.getD_some] at hto
        exact absurd (hoffsets y hmem).1 (by omega)
      · have hname := (decide_eq_true_eq.mp (Bool.and_eq_true _ _ ▸ hraw).2)
        obtain ⟨w, hw, -, -, hlen⟩ := close_spec hname hfind
        have hdrop : u.length = x.1.name.length + 2 := by
          rw [isEndTag_found hfind] at hend
          cases hhead : (u.drop (x.1.name.length + 2)).head? with
          | none =>
              rw [List.head?_eq_none_iff, List.drop_eq_nil_iff] at hhead
              rw [hw, List.length_cons, List.length_cons] at hhead ⊢
              omega
          | some b =>
              rw [hhead, Option.any_some] at hend
              exact absurd ⟨hraw, rest, u, b, hrest, hfind, hhead, hend⟩ hmiss
        obtain ⟨y₀, more', rfl, hisEnd, hoffset, hlast⟩ := walk_close hname hfuel hu hfind hmore
        obtain rfl := hlast hdrop
        obtain rfl := List.mem_singleton.mp hmem
        exact ⟨hisEnd, by omega⟩

/-- Where the end of raw text is missed, a tag is read in it. -/
theorem nearMiss_inRaw {s : Bytes} (hs : IsText s) {x : Tag × Option Bytes} (hx : x ∈ tagsRead s)
    (hmiss : NearMiss x) : ∃ y ∈ tagsRead s, InRaw s.length x y.1.offset ∧
      y.1.offset + (x.1.name.length + 2) < s.length := by
  obtain ⟨hraw, rest, u, b, hrest, hfind, hhead, hb⟩ := hmiss
  obtain ⟨-, horder⟩ := walk_order (Nat.lt_succ_self _) hs le_rfl (walk_tagsRead hs)
  obtain ⟨htext, hle, fuel, more, hfuel, hmore, -, hsub⟩ := horder x hx
  rw [hrest, Option.getD_some] at htext hle hfuel hmore
  rw [Tag.afterRaw_isRaw hraw, hfind, Option.getD_some] at hmore hfuel
  obtain ⟨hu, hule⟩ := findCi_text htext hfind
  have hname := (decide_eq_true_eq.mp (Bool.and_eq_true _ _ ▸ hraw).2)
  obtain ⟨y, more', rfl, -, hoffset, -⟩ := walk_close hname hfuel hu hfind hmore
  have hlong : x.1.name.length + 2 < u.length := by
    by_contra hshort
    rw [List.drop_eq_nil_of_le (by omega)] at hhead
    cases hhead
  refine ⟨y, hsub (Tag.isRaw_endsWalk hraw) y List.mem_cons_self, ⟨hraw, rest, hrest, ?_, ?_⟩, ?_⟩
  · omega
  · rcases endTag_cases hfind with ⟨hend, -⟩ | ⟨-, hlt⟩
    · rw [isEndTag_found hfind, hhead, Option.any_some, hb] at hend
      cases hend
    · omega
  · omega

/-! ## Candidates -/

section

variable {cfg : ScanConfig} {doc : HttpsUrl} {S : Nat → Prop}

/-- The candidates and the open form are at offsets that `S` holds of. -/
structure Scanner.NamedAt (S : Nat → Prop) (sc : Scanner) : Prop where
  candidates : ∀ c ∈ sc.out.candidates, S c.offset
  form : ∀ f, sc.form = some f → S f.offset

theorem start_namedAt (doc : HttpsUrl) : (Scanner.start doc).NamedAt S where
  candidates := fun c hc => absurd hc List.not_mem_nil
  form := fun f hf => by cases hf

theorem emit_namedAt {out : ScanResult} (target : Except Reject (Option HttpsUrl)) (via : Via)
    (method : Method) (fields : List String) {offset : Nat}
    (h : ∀ c ∈ out.candidates, S c.offset) (ho : S offset) :
    ∀ c ∈ (emit cfg out target via method fields offset).candidates, S c.offset := by
  rw [emit.eq_def]
  split
  · exact h
  · exact h
  · dsimp only
    split_ifs with hallowed hseen hmax
    · exact h
    · exact h
    · exact h
    · rw [List.forall_mem_append, List.forall_mem_singleton]
      exact ⟨h, ho⟩

theorem closeForm_namedAt {out : ScanResult} {f : FormAcc}
    (h : ∀ c ∈ out.candidates, S c.offset) (hf : S f.offset) :
    ∀ c ∈ (closeForm cfg out f).candidates, S c.offset := by
  rw [closeForm]
  split_ifs with hpassword
  · exact h
  · exact emit_namedAt _ _ _ _ h hf

theorem addField_offset (f : FormAcc) (t : Tag) : (addField f t).offset = f.offset := by
  have hinput : (if t.name = lit "input" ∧ ((t.text "type").any
      (fun ty => Url.eqIgnoreAsciiCase (trim ty) "password".toList)) = true
      then { f with has_password := true } else f).offset = f.offset := by
    split_ifs
    · rfl
    · rfl
  rw [addField]
  cases fieldName t with
  | none => exact hinput
  | some name =>
      have hkeep : ∀ g : FormAcc, (if g.fields.length < MAX_FIELDS ∧ name ∉ g.fields then
          { g with fields := g.fields.orderedInsert (· ≤ ·) name }
        else g).offset = g.offset := by
        intro g
        split_ifs
        · rfl
        · rfl
      exact (hkeep _).trans hinput

theorem openForm_offset {base : HttpsUrl} {t : Tag} {f : FormAcc}
    (h : openForm doc base t = some f) : f.offset = t.offset := by
  rw [openForm] at h
  split_ifs at h
  all_goals
    obtain rfl := Option.some.inj h
    rfl

/-- Only a start tag names a candidate or opens a form. -/
theorem visit_namedAt {sc : Scanner} {t : Tag} (h : sc.NamedAt S)
    (ht : t.isEnd = false → S t.offset) : (visit cfg doc sc t).NamedAt S := by
  rw [visit]
  split
  · cases t.text "href" with
    | none => exact h
    | some href =>
        dsimp only
        split
        · split_ifs
          · exact ⟨h.candidates, h.form⟩
          · exact ⟨h.candidates, h.form⟩
        · exact ⟨h.candidates, h.form⟩
  split
  · next hanchor =>
      cases t.text "href" with
      | none => exact h
      | some href => exact ⟨emit_namedAt _ _ _ _ h.candidates (ht hanchor.2), h.form⟩
  split
  · next hrel =>
      dsimp only
      split
      · cases t.text "href" with
        | none => exact h
        | some href => exact ⟨emit_namedAt _ _ _ _ h.candidates (ht hrel.2), h.form⟩
      · exact h
  split
  · next hopen =>
      refine ⟨h.candidates, fun f hf => ?_⟩
      rw [openForm_offset hf]
      exact ht hopen.2.1
  split
  · cases hsc : sc.form with
    | none => exact h
    | some f => exact ⟨closeForm_namedAt h.candidates (h.form f hsc), fun _ h => by cases h⟩
  split
  · refine ⟨h.candidates, fun f hf => ?_⟩
    obtain ⟨g, hg, rfl⟩ := Option.map_eq_some_iff.mp hf
    rw [addField_offset]
    exact h.form g hg
  · exact h

theorem visits_namedAt {sc : Scanner} {ts : List Tag} (h : sc.NamedAt S)
    (ht : ∀ t ∈ ts, t.isEnd = false → S t.offset) :
    (ts.foldl (visit cfg doc) sc).NamedAt S := by
  induction ts generalizing sc with
  | nil => exact h
  | cons t ts ih =>
      rw [List.forall_mem_cons] at ht
      exact ih (visit_namedAt h ht.1) ht.2

theorem finish_namedAt {sc : Scanner} (h : sc.NamedAt S) :
    ∀ c ∈ (finish cfg sc).candidates, S c.offset := by
  rw [finish]
  cases hform : sc.form with
  | none => exact h.candidates
  | some f => exact closeForm_namedAt h.candidates (h.form f hform)

end

/-- A decoded tag is where it is written. -/
theorem decodeTags_mem {decode : Bytes → Run Bytes} {tags tags' : List (Tag × Option Bytes)}
    (h : decodeTags decode tags = .ok tags') {t' : Tag × Option Bytes} (ht : t' ∈ tags') :
    ∃ t ∈ tags, t.1.isEnd = t'.1.isEnd ∧ t.1.offset = t'.1.offset := by
  induction tags generalizing tags' with
  | nil =>
      obtain rfl := Except.ok.inj h
      cases ht
  | cons t tags ih =>
      obtain ⟨tag, htag, h⟩ := run_bind h
      obtain ⟨more, hmore, h⟩ := run_bind h
      obtain rfl := Except.ok.inj h
      rcases List.mem_cons.mp ht with rfl | ht
      · rw [decodeTag] at htag
        cases hd : decodeAttrs decode t.1.attrs with
        | error e =>
            rw [hd] at htag
            cases htag
        | ok attrs =>
            rw [hd] at htag
            obtain rfl := Except.ok.inj htag
            exact ⟨t, List.mem_cons_self, rfl, rfl⟩
      · obtain ⟨t, hmem, heq⟩ := ih hmore ht
        exact ⟨t, List.mem_cons_of_mem _ hmem, heq⟩

/-- A candidate is at the offset of a start tag that is read. -/
theorem candidate_offset {cfg : ScanConfig} {body : Bytes} (hbody : IsText body) {out : ScanResult}
    (h : scan cfg body = .ok (.ok out)) {c : CandidateState} (hc : c ∈ out.candidates) :
    ∃ y ∈ tagsRead (bounded cfg body), y.1.isEnd = false ∧ y.1.offset = c.offset := by
  obtain ⟨doc, tags, -, htags, hcands⟩ := scan_tags h
  have hs := @isText_bounded cfg _ hbody
  obtain ⟨raw, hraw, -, hdecode⟩ := walk_spec (n := (bounded cfg body).length)
    (Nat.lt_succ_self _) hs
  obtain rfl := Except.ok.inj ((walk_tagsRead hs).symm.trans hraw)
  rw [hdecode] at htags
  rw [hcands] at hc
  refine finish_namedAt
    (S := fun o => ∃ y ∈ tagsRead (bounded cfg body), y.1.isEnd = false ∧ y.1.offset = o)
    (visits_namedAt (start_namedAt doc) fun t ht hstart => ?_) c hc
  obtain ⟨t', ht', rfl⟩ := List.mem_map.mp (List.mem_of_mem_filter ht)
  obtain ⟨y, hy, hend, hoffset⟩ := decodeTags_mem htags ht'
  exact ⟨y, hy, hend.trans hstart, hoffset⟩

/-- The tags read in raw text are none but one in which the text ends, if and only
if no end of raw text is missed, and then no candidate is from there. -/
theorem raw_text_silent (cfg : ScanConfig) (body : Bytes) (hbody : IsText body) :
    ((∀ x ∈ tagsRead (bounded cfg body), ∀ y ∈ tagsRead (bounded cfg body),
        InRaw (bounded cfg body).length x y.1.offset →
          y.1.offset + (x.1.name.length + 2) = (bounded cfg body).length) ↔
      ∀ x ∈ tagsRead (bounded cfg body), ¬ NearMiss x) ∧
    ((∀ x ∈ tagsRead (bounded cfg body), ¬ NearMiss x) →
      ∀ out, scan cfg body = .ok (.ok out) → ∀ c ∈ out.candidates,
        ∀ x ∈ tagsRead (bounded cfg body), ¬ InRaw (bounded cfg body).length x c.offset) := by
  have hs := @isText_bounded cfg _ hbody
  refine ⟨⟨fun h x hx hmiss => ?_, fun h x hx y hy hin => (inRaw_last hs hx hy hin (h x hx)).2⟩,
    fun h out hscan c hc x hx hin => ?_⟩
  · obtain ⟨y, hy, hin, hlt⟩ := nearMiss_inRaw hs hx hmiss
    exact absurd (h x hx y hy hin) (by omega)
  · obtain ⟨y, hy, hstart, hoffset⟩ := candidate_offset hbody hscan hc
    rw [← hoffset] at hin
    exact absurd ((inRaw_last hs hx hy hin (h x hx)).1.symm.trans hstart) (by decide)

namespace Sample

/-- What follows the element's name does not end it. -/
def xmpPage : Bytes := lit "<xmp></xmpl><a href=/x></xmp>"

def xmpTag : Tag × Option Bytes :=
  ({ name := lit "xmp", isEnd := false, attrs := [], offset := 0 },
    some (lit "</xmpl><a href=/x></xmp>"))

/-- The element holds other end tags. -/
def quietPage : Bytes := lit "<xmp></xm></XMP ><a href=/x>"

end Sample

open Route.Sample in
theorem raw_text_read : ∃ out c, scan config xmpPage = .ok (.ok out) ∧ c ∈ out.candidates ∧
    xmpTag ∈ tagsRead (bounded config xmpPage) ∧
      InRaw (bounded config xmpPage).length xmpTag c.offset :=
  ⟨_, _, rfl, List.mem_cons_self, by decide +kernel, by decide +kernel, _, rfl, by decide +kernel,
    by decide +kernel⟩

open Route.Sample in
theorem raw_text_silent_quiet : ∃ out, scan config quietPage = .ok (.ok out) ∧
    ∀ c ∈ out.candidates, ∀ x ∈ tagsRead (bounded config quietPage),
      ¬ InRaw (bounded config quietPage).length x c.offset :=
  ⟨_, rfl, (raw_text_silent config quietPage ⟨_, rfl⟩).2 (by decide +kernel) _ rfl⟩

end Secdogie.Graph.Route
