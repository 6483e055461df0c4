/-
# `Secdogie.Graph.RouteCut` — what is left of a page that is cut

A page over the limit is cut, and what is found in the part is held against what
is found in the whole.  Every tag that ends before the cut is one of the whole
page, in the same place (`walk_append`); the tag that the cut falls in, and the
form that is open there, are flushed as if they were complete.

`truncation_loses`: when the cut falls in no tag that names something and in no
form, every candidate of the part is one of the whole.
-/
import Secdogie.Graph.RouteSafe

namespace Secdogie.Graph.Route

open Url (HttpsUrl Reject)
open Utf8 (isBoundary isAscii IsText)

/-! ## Searches in a text that goes on -/

theorem isBoundary_append {t q : Bytes} (ht : isBoundary t = true) (hq : IsText q) :
    isBoundary (t ++ q) = true := by
  cases t with
  | nil => exact hq.isBoundary
  | cons b t => exact ht

theorem slice_append {t q v : Bytes} {k : Nat} (hq : IsText q) (h : slice t k = .ok v) :
    slice (t ++ q) k = .ok v := by
  rw [slice] at h
  split_ifs at h with hk
  obtain ⟨hlen, ht, hd⟩ := hk
  obtain rfl := Except.ok.inj h
  have hdrop : (t ++ q).drop k = t.drop k ++ q := List.drop_append_of_le_length hlen
  rw [slice, if_pos ⟨by rw [List.length_append]; omega, isBoundary_append ht hq,
    by rw [hdrop]; exact isBoundary_append hd hq⟩, List.take_append_of_le_length hlen]

/-- A search that stops in a text stops there when the text goes on. -/
theorem dropWhile_append_stop {p : UInt8 → Bool} {t q u : Bytes} {b : UInt8}
    (h : t.dropWhile p = b :: u) :
    (t ++ q).dropWhile p = b :: (u ++ q) ∧ (t ++ q).takeWhile p = t.takeWhile p := by
  induction t with
  | nil => cases h
  | cons c t ih =>
      by_cases hc : p c = true
      · rw [List.dropWhile_cons_of_pos hc] at h
        obtain ⟨hd, ht⟩ := ih h
        rw [List.cons_append, List.dropWhile_cons_of_pos hc, List.takeWhile_cons_of_pos hc,
          List.takeWhile_cons_of_pos hc, hd, ht]
        exact ⟨rfl, rfl⟩
      · rw [List.dropWhile_cons_of_neg hc] at h
        obtain ⟨rfl, rfl⟩ := List.cons.inj h
        rw [List.cons_append, List.dropWhile_cons_of_neg hc, List.takeWhile_cons_of_neg hc,
          List.takeWhile_cons_of_neg hc]
        exact ⟨rfl, rfl⟩

theorem isPrefixOf_append {a t q : Bytes} (h : a.isPrefixOf t = true) :
    a.isPrefixOf (t ++ q) = true := by
  rw [List.isPrefixOf_iff_prefix] at h ⊢
  exact h.trans (List.prefix_append t q)

/-- In a text that is long enough a pattern is a prefix, or it is not one when the
text goes on. -/
theorem isPrefixOf_append_iff {a t q : Bytes} (h : a.length ≤ t.length) :
    a.isPrefixOf (t ++ q) = a.isPrefixOf t := by
  rw [Bool.eq_iff_iff, List.isPrefixOf_iff_prefix, List.isPrefixOf_iff_prefix]
  exact ⟨fun hp => List.prefix_of_prefix_length_le hp (List.prefix_append t q) h,
    fun hp => hp.trans (List.prefix_append t q)⟩

theorem find_append {needle t q u : Bytes} (h : find needle t = some u) :
    find needle (t ++ q) = some (u ++ q) := by
  induction t with
  | nil => cases h
  | cons b t ih =>
      rw [find] at h
      rw [List.cons_append, find]
      split_ifs at h with hp
      · obtain rfl := Option.some.inj h
        have hp' := isPrefixOf_append (q := q) hp
        rw [List.cons_append] at hp'
        rw [if_pos hp']
        rfl
      · obtain ⟨hs, hu⟩ := find_spec h
        have hlen : needle.length ≤ (b :: t).length := by
          have hle := (List.isPrefixOf_iff_prefix.mp hu).length_le
          have hsle := hs.length_le
          rw [List.length_cons]
          omega
        have hp' := isPrefixOf_append_iff (q := q) hlen
        rw [List.cons_append] at hp'
        rw [hp', if_neg hp, ih h]

theorem findCi_append {needle t q u : Bytes} (h : findCi needle t = some u) :
    findCi needle (t ++ q) = some (u ++ q) := by
  induction t with
  | nil => cases h
  | cons b t ih =>
      rw [findCi] at h
      rw [List.cons_append, findCi]
      have happ : lower (b :: (t ++ q)) = lower (b :: t) ++ lower q := by
        rw [← List.cons_append]
        exact List.map_append
      rw [happ]
      split_ifs at h with hp
      · obtain rfl := Option.some.inj h
        rw [if_pos (isPrefixOf_append hp)]
        rfl
      · obtain ⟨hs, hu⟩ := findCi_spec h
        have hlen : (lower needle).length ≤ (lower (b :: t)).length := by
          have hle := (List.isPrefixOf_iff_prefix.mp hu).length_le
          have hsle := hs.length_le
          rw [lower, lower, List.length_map, List.length_map] at hle ⊢
          rw [List.length_cons]
          omega
        rw [isPrefixOf_append_iff hlen, if_neg hp, ih h]

/-! ## Tags in a text that goes on -/

theorem run_bind {α β : Type} {x : Run α} {f : α → Run β} {b : β} (h : x >>= f = .ok b) :
    ∃ a, x = .ok a ∧ f a = .ok b := by
  cases x with
  | error e => cases h
  | ok a => exact ⟨a, rfl, h⟩

theorem attrValue_append {t q v rest : Bytes} (hq : IsText q) (h : attrValue t = .ok (v, rest))
    (hrest : rest ≠ []) : attrValue (t ++ q) = .ok (v, rest ++ q) := by
  cases t with
  | nil =>
      obtain ⟨-, rfl⟩ := Prod.mk.inj (Except.ok.inj h)
      exact absurd rfl hrest
  | cons c t =>
      rw [attrValue] at h ⊢
      simp only [List.cons_append, List.head?_cons, List.drop_succ_cons, List.drop_zero] at h ⊢
      by_cases heq : some c = some 0x3d
      · rw [if_pos heq] at h ⊢
        cases hd : t.dropWhile isWs with
        | nil =>
            rw [hd] at h
            obtain ⟨-, rfl⟩ := Prod.mk.inj (Except.ok.inj h)
            exact absurd rfl hrest
        | cons b u =>
            rw [hd] at h
            rw [(dropWhile_append_stop hd).1]
            dsimp only at h ⊢
            by_cases hquote : b = 0x22 ∨ b = 0x27
            · rw [if_pos hquote] at h ⊢
              cases hend : u.dropWhile (· != b) with
              | nil =>
                  have hall : u.takeWhile (· != b) = u := by
                    have hsplit := List.takeWhile_append_dropWhile (p := (· != b)) (l := u)
                    rwa [hend, List.append_nil] at hsplit
                  rw [hall] at h
                  obtain ⟨w, -, h⟩ := run_bind h
                  obtain ⟨-, rfl⟩ := Prod.mk.inj (Except.ok.inj h)
                  exact absurd (List.drop_eq_nil_of_le (Nat.le_succ _)) hrest
              | cons e r =>
                  rw [(dropWhile_append_stop hend).2]
                  obtain ⟨w, hs, h⟩ := run_bind h
                  obtain ⟨rfl, rfl⟩ := Prod.mk.inj (Except.ok.inj h)
                  have hlen : (u.takeWhile (· != b)).length + 1 ≤ u.length := by
                    by_contra hlt
                    exact hrest (List.drop_eq_nil_of_le (by omega))
                  rw [slice_append hq hs, List.drop_append_of_le_length hlen]
                  rfl
            · rw [if_neg hquote] at h ⊢
              rw [← List.cons_append]
              cases hend : (b :: u).dropWhile (fun b => !isWs b && b != 0x3e) with
              | nil =>
                  rw [drop_takeWhile, hend] at h
                  obtain ⟨w, -, h⟩ := run_bind h
                  obtain ⟨-, rfl⟩ := Prod.mk.inj (Except.ok.inj h)
                  exact absurd rfl hrest
              | cons e r =>
                  obtain ⟨-, htake⟩ := dropWhile_append_stop (q := q) hend
                  rw [htake]
                  obtain ⟨w, hs, h⟩ := run_bind h
                  obtain ⟨rfl, rfl⟩ := Prod.mk.inj (Except.ok.inj h)
                  rw [slice_append hq hs, List.drop_append_of_le_length
                    (List.takeWhile_prefix _).length_le]
                  rfl
      · rw [if_neg heq] at h ⊢
        obtain ⟨rfl, rfl⟩ := Prod.mk.inj (Except.ok.inj h)
        rfl

section

variable {decode : Bytes → Run Bytes}

theorem attributes_nil {fuel : Nat} {attrs : List (Bytes × Bytes)} {rest : Option Bytes}
    (h : attributes decode fuel [] = .ok (attrs, rest)) : rest = none := by
  cases fuel with
  | zero => cases h
  | succ fuel =>
      obtain ⟨-, rfl⟩ := Prod.mk.inj (Except.ok.inj h)
      rfl

/-- Attributes that end in a text end there when the text goes on. -/
theorem attributes_append {fuel fuel' : Nat} {t q rest : Bytes} {attrs : List (Bytes × Bytes)}
    (hq : IsText q) (hfuel : fuel ≤ fuel')
    (h : attributes decode fuel t = .ok (attrs, some rest)) :
    attributes decode fuel' (t ++ q) = .ok (attrs, some (rest ++ q)) := by
  induction fuel generalizing fuel' t attrs with
  | zero => cases h
  | succ fuel ih =>
      obtain ⟨fuel', rfl⟩ := Nat.exists_eq_add_of_le' (Nat.lt_of_lt_of_le (Nat.succ_pos _) hfuel)
      have hfuel := Nat.le_of_succ_le_succ hfuel
      simp only [attributes] at h ⊢
      cases hd : t.dropWhile (fun b => isWs b || b == 0x2f) with
      | nil =>
          rw [hd] at h
          cases (Prod.mk.inj (Except.ok.inj h)).2
      | cons b u =>
          rw [hd] at h
          rw [(dropWhile_append_stop hd).1]
          dsimp only at h ⊢
          by_cases hgt : b = 0x3e
          · rw [if_pos hgt] at h ⊢
            obtain ⟨rfl, hrest⟩ := Prod.mk.inj (Except.ok.inj h)
            obtain rfl := Option.some.inj hrest
            rfl
          · rw [if_neg hgt] at h ⊢
            have htake : ((b :: (u ++ q)).takeWhile isAttrByte).length =
                ((b :: u).takeWhile isAttrByte).length ∨ (b :: u).dropWhile isAttrByte = [] := by
              cases hname : (b :: u).dropWhile isAttrByte with
              | nil => exact .inr rfl
              | cons c r =>
                  rw [← List.cons_append, (dropWhile_append_stop hname).2]
                  exact .inl rfl
            by_cases hk : ((b :: u).takeWhile isAttrByte).length = 0
            · rw [if_pos hk] at h
              rcases htake with htake | hname
              · rw [if_pos (htake.trans hk)]
                exact ih hfuel h
              · rw [← drop_takeWhile, hk] at hname
                cases hname
            · rw [if_neg hk, drop_takeWhile] at h
              obtain ⟨aname, hs, h⟩ := run_bind h
              obtain ⟨⟨v, r⟩, hv, h⟩ := run_bind h
              obtain ⟨value, hval, h⟩ := run_bind h
              obtain ⟨⟨as, rest'⟩, hattrs, h⟩ := run_bind h
              obtain ⟨rfl, rfl⟩ := Prod.mk.inj (Except.ok.inj h)
              have hr : r ≠ [] := by
                rintro rfl
                cases attributes_nil hattrs
              cases hname : (b :: u).dropWhile isAttrByte with
              | nil =>
                  -- the text ends in the name
                  rw [hname] at hv
                  exact absurd (Prod.mk.inj (Except.ok.inj hv)).2.symm hr
              | cons c w =>
                  rw [hname] at hv htake
                  have htake := htake.resolve_right (List.cons_ne_nil _ _)
                  cases hblank : (c :: w).dropWhile isWs with
                  | nil =>
                      rw [hblank] at hv
                      exact absurd (Prod.mk.inj (Except.ok.inj hv)).2.symm hr
                  | cons d x =>
                      rw [hblank] at hv
                      have hv := attrValue_append hq hv hr
                      have hs := slice_append hq hs
                      have hrec := ih hfuel hattrs
                      rw [htake, if_neg hk, ← htake, drop_takeWhile, ← List.cons_append,
                        (dropWhile_append_stop hname).1, ← List.cons_append,
                        (dropWhile_append_stop hblank).1, (dropWhile_append_stop hname).2, hs]
                      simp only [bind, Except.bind]
                      rw [← List.cons_append, hv]
                      dsimp only
                      rw [hval]
                      dsimp only
                      rw [hrec]

/-- A tag that ends in a text is read there when the text goes on. -/
theorem readTag_append {offset : Nat} {t q rest : Bytes} {tag : Tag} (hq : IsText q)
    (h : readTag decode offset t = .ok (some (tag, some rest))) :
    readTag decode offset (t ++ q) = .ok (some (tag, some (rest ++ q))) := by
  have hhead : (t ++ q).head? = t.head? := by
    cases t with
    | nil => cases h
    | cons c t => rfl
  have hnamed : (if (t ++ q).head? = some 0x2f then (t ++ q).drop 1 else t ++ q) =
      (if t.head? = some 0x2f then t.drop 1 else t) ++ q := by
    rw [hhead]
    split_ifs with hslash
    · cases t with
      | nil => cases hslash
      | cons c t => rfl
    · rfl
  simp only [readTag] at h ⊢
  rw [hnamed]
  simp only [hhead]
  generalize (if t.head? = some 0x2f then t.drop 1 else t) = named at h
  by_cases hname : named.head?.any isAlphabetic = false
  · rw [if_pos hname] at h
    cases h
  · have hname' : ¬ (named ++ q).head?.any isAlphabetic = false := by
      cases named with
      | nil => exact absurd rfl hname
      | cons c named => exact hname
    rw [if_neg hname] at h
    rw [if_neg hname']
    obtain ⟨name, hs, h⟩ := run_bind h
    obtain ⟨⟨attrs, r⟩, hattrs, h⟩ := run_bind h
    obtain ⟨rfl, rfl⟩ := Prod.mk.inj (Option.some.inj (Except.ok.inj h))
    rw [drop_takeWhile] at hattrs
    cases hafter : named.dropWhile isNameByte with
    | nil =>
        rw [hafter] at hattrs
        cases attributes_nil hattrs
    | cons c w =>
        rw [hafter] at hattrs
        have hfuel : named.length + 1 ≤ (named ++ q).length + 1 := by
          rw [List.length_append]
          omega
        have hattrs := attributes_append hq hfuel hattrs
        obtain ⟨hdrop, htake⟩ := dropWhile_append_stop (q := q) hafter
        rw [drop_takeWhile, hdrop, htake, slice_append hq hs]
        simp only [bind, Except.bind]
        rw [← List.cons_append, hattrs]

/-- Where there is no tag, there is none when the text goes on, unless it ends
there. -/
theorem readTag_none_append {offset : Nat} {t q : Bytes}
    (h : readTag decode offset t = .ok none) (hne : t ≠ []) (hslash : t ≠ [0x2f]) :
    readTag decode offset (t ++ q) = .ok none := by
  cases t with
  | nil => exact absurd rfl hne
  | cons c t =>
      simp only [readTag, List.cons_append, List.head?_cons, List.drop_succ_cons,
        List.drop_zero] at h ⊢
      have hhead : ∀ named rest : Bytes, named ≠ [] →
          (named ++ rest).head?.any isAlphabetic = named.head?.any isAlphabetic := by
        intro named rest hne
        cases named with
        | nil => exact absurd rfl hne
        | cons d named => rfl
      by_cases hc : some c = some 0x2f
      · rw [if_pos hc] at h ⊢
        have ht : t ≠ [] := by
          rintro rfl
          exact hslash (by rw [Option.some.inj hc])
        by_cases hname : t.head?.any isAlphabetic = false
        · rw [if_pos (by rw [hhead t q ht, hname])]
        · rw [if_neg hname] at h
          obtain ⟨name, -, h⟩ := run_bind h
          obtain ⟨⟨attrs, r⟩, -, h⟩ := run_bind h
          cases Except.ok.inj h
      · rw [if_neg hc] at h ⊢
        by_cases hname : (c :: t).head?.any isAlphabetic = false
        · rw [if_pos (by rw [← List.cons_append, hhead _ q (List.cons_ne_nil _ _), hname])]
        · rw [if_neg hname] at h
          obtain ⟨name, -, h⟩ := run_bind h
          obtain ⟨⟨attrs, r⟩, -, h⟩ := run_bind h
          cases Except.ok.inj h

/-! ## Pieces of a text that goes on -/

/-- A piece after which a text that is cut there has no other. -/
def Piece.IsLast : Piece → Prop
  | .text => True
  | .markup rest => 0x3c ∉ rest
  | .tag _ rest => rest = none

/-- The piece, in a text that goes on. -/
def Piece.goingOn (q : Bytes) : Piece → Piece
  | .text => .text
  | .markup rest => .markup (rest ++ q)
  | .tag t rest => .tag t (rest.map (· ++ q))

theorem not_mem_skipPast {needle t : Bytes} (h : find needle t = none) :
    skipPast needle t = [] := by rw [skipPast, h]

/-- What comes next in a text comes next when the text goes on, unless it is the
last piece. -/
theorem nextPiece_append {n : Nat} {t q : Bytes} {r : Piece} (hq : IsText q)
    (h : nextPiece decode n t = .ok r) :
    r.IsLast ∨ nextPiece decode (n + q.length) (t ++ q) = .ok (r.goingOn q) := by
  simp only [nextPiece] at h ⊢
  cases hd : t.dropWhile (· != 0x3c) with
  | nil =>
      rw [hd] at h
      obtain rfl := Except.ok.inj h
      exact .inl trivial
  | cons b u =>
      obtain rfl := dropWhile_lt hd
      rw [hd] at h
      rw [(dropWhile_append_stop hd).1]
      dsimp only at h ⊢
      have hfour : lit "<!--" = [0x3c, 0x21, 0x2d, 0x2d] := lit_comment
      have hbang : lit "<!" = [0x3c, 0x21] := lit_markup
      have hask : lit "<?" = [0x3c, 0x3f] := lit_instruction
      by_cases hcomment : (lit "<!--").isPrefixOf (0x3c :: u) = true
      · rw [if_pos hcomment] at h
        obtain rfl := Except.ok.inj h
        have hcomment' := isPrefixOf_append (q := q) hcomment
        rw [List.cons_append] at hcomment'
        rw [if_pos hcomment']
        cases hf : find (lit "-->") ((0x3c :: u).drop 4) with
        | none =>
            left
            rw [not_mem_skipPast hf]
            exact List.not_mem_nil
        | some v =>
            right
            have hlen : 4 ≤ (0x3c :: u).length := by
              have hle := (List.isPrefixOf_iff_prefix.mp hcomment).length_le
              rwa [hfour] at hle
            have hv : (lit "-->").length ≤ v.length :=
              (List.isPrefixOf_iff_prefix.mp (find_spec hf).2).length_le
            have hf' := find_append (q := q) hf
            rw [← List.drop_append_of_le_length hlen, List.cons_append] at hf'
            rw [skipPast, hf', skipPast, hf]
            dsimp only
            rw [List.drop_append_of_le_length hv]
            rfl
      · rw [if_neg hcomment] at h
        by_cases hmarkup : (lit "<!").isPrefixOf (0x3c :: u) = true ∨
            (lit "<?").isPrefixOf (0x3c :: u) = true
        · rw [if_pos hmarkup] at h
          obtain rfl := Except.ok.inj h
          cases hf : find (lit ">") (0x3c :: u) with
          | none =>
              left
              rw [not_mem_skipPast hf]
              exact List.not_mem_nil
          | some v =>
              right
              have hcomment' : ¬ (lit "<!--").isPrefixOf (0x3c :: (u ++ q)) = true := by
                intro hp
                rw [← List.cons_append, List.isPrefixOf_iff_prefix] at hp
                rw [List.isPrefixOf_iff_prefix] at hcomment
                have hend : (0x3e : UInt8) ∈ 0x3c :: u := by
                  have hgt : lit ">" = [0x3e] := lit_end
                  obtain ⟨hs, hv⟩ := find_spec hf
                  rw [List.isPrefixOf_iff_prefix, hgt] at hv
                  exact hs.subset (hv.subset List.mem_cons_self)
                rcases List.prefix_or_prefix_of_prefix hp (List.prefix_append _ q) with hpre | hpre
                · exact hcomment hpre
                · have hmem := hpre.subset hend
                  rw [hfour] at hmem
                  revert hmem
                  decide
              have hmarkup' : (lit "<!").isPrefixOf (0x3c :: (u ++ q)) = true ∨
                  (lit "<?").isPrefixOf (0x3c :: (u ++ q)) = true := by
                rw [← List.cons_append]
                exact hmarkup.imp isPrefixOf_append isPrefixOf_append
              have hf' := find_append (q := q) hf
              have hv : (lit ">").length ≤ v.length :=
                (List.isPrefixOf_iff_prefix.mp (find_spec hf).2).length_le
              rw [List.cons_append] at hf'
              rw [if_neg hcomment', if_pos hmarkup', skipPast, hf', skipPast, hf]
              dsimp only
              rw [List.drop_append_of_le_length hv]
              rfl
        · rw [if_neg hmarkup] at h
          have hgoing : u ≠ [] → ¬ (lit "<!--").isPrefixOf (0x3c :: (u ++ q)) = true ∧
              ¬ ((lit "<!").isPrefixOf (0x3c :: (u ++ q)) = true ∨
                (lit "<?").isPrefixOf (0x3c :: (u ++ q)) = true) := by
            intro hne
            have hlen : 2 ≤ (0x3c :: u).length := by
              cases u with
              | nil => exact absurd rfl hne
              | cons c u => exact Nat.le_add_left 2 _
            have hmarkup' : ¬ ((lit "<!").isPrefixOf (0x3c :: (u ++ q)) = true ∨
                (lit "<?").isPrefixOf (0x3c :: (u ++ q)) = true) := by
              rwa [← List.cons_append, isPrefixOf_append_iff (by rwa [hbang]),
                isPrefixOf_append_iff (by rwa [hask])]
            refine ⟨fun hp => hmarkup' (.inl ?_), hmarkup'⟩
            rw [List.isPrefixOf_iff_prefix] at hp ⊢
            exact List.IsPrefix.trans (by rw [hbang, hfour]; exact ⟨[0x2d, 0x2d], rfl⟩) hp
          have hoffset : n + q.length - ((u ++ q).length + 1) = n - (u.length + 1) := by
            rw [List.length_append]
            omega
          rw [hoffset]
          obtain ⟨o, ho, h⟩ := run_bind h
          cases o with
          | none =>
              obtain rfl := Except.ok.inj h
              by_cases hshort : u = [] ∨ u = [0x2f]
              · left
                rcases hshort with rfl | rfl
                · exact List.not_mem_nil
                · simp [Piece.IsLast]
              · rw [not_or] at hshort
                obtain ⟨hcomment', hmarkup'⟩ := hgoing hshort.1
                rw [if_neg hcomment', if_neg hmarkup', readTag_none_append ho hshort.1 hshort.2]
                exact .inr rfl
          | some o =>
              obtain ⟨tag, rest⟩ := o
              obtain rfl := Except.ok.inj h
              cases rest with
              | none => exact .inl rfl
              | some rest =>
                  have hne : u ≠ [] := by
                    rintro rfl
                    cases ho
                  obtain ⟨hcomment', hmarkup'⟩ := hgoing hne
                  rw [if_neg hcomment', if_neg hmarkup', readTag_append hq ho]
                  exact .inr rfl

/-- The walk of a text where no tag begins. -/
theorem walk_text {n fuel : Nat} {t : Bytes} {tags : List (Tag × Option Bytes)}
    (ht : 0x3c ∉ t) (h : walk decode n fuel t = .ok tags) : tags = [] := by
  cases fuel with
  | zero => cases h
  | succ fuel =>
      have hd : t.dropWhile (· != 0x3c) = [] := by
        rw [List.dropWhile_eq_nil_iff]
        intro b hb
        rw [bne_iff_ne]
        rintro rfl
        exact ht hb
      have hp : nextPiece decode n t = .ok .text := by rw [nextPiece, hd]
      simp only [walk, hp, bind, Except.bind] at h
      exact (Except.ok.inj h).symm

theorem afterRaw_append {tag : Tag} {rest q : Bytes} :
    0x3c ∉ tag.afterRaw rest ∨ tag.afterRaw (rest ++ q) = tag.afterRaw rest ++ q := by
  rw [Tag.afterRaw, Tag.afterRaw]
  split_ifs with hraw
  · cases hf : findCi (lit "</" ++ tag.name) rest with
    | none => exact .inl List.not_mem_nil
    | some u => exact .inr (by rw [findCi_append hf]; rfl)
  · exact .inr rfl

theorem afterRaw_nil (tag : Tag) : tag.afterRaw [] = [] := by
  rw [Tag.afterRaw]
  split_ifs
  · rfl
  · rfl

end

/-- All of the tags but one, that does not end, come first in others. -/
def ComeFirst (tags tags' : List (Tag × Option Bytes)) : Prop :=
  ∃ ended last, tags = ended ++ last ∧ last.length ≤ 1 ∧ (∀ x ∈ last, x.2 = none) ∧
    ended.map Prod.fst <+: tags'.map Prod.fst

theorem comeFirst_nil (tags' : List (Tag × Option Bytes)) : ComeFirst [] tags' :=
  ⟨[], [], rfl, Nat.zero_le _, nofun, List.nil_prefix⟩

theorem comeFirst_last (tag : Tag) (tags' : List (Tag × Option Bytes)) :
    ComeFirst [(tag, none)] tags' :=
  ⟨[], [(tag, none)], rfl, le_rfl, by simp, List.nil_prefix⟩

theorem ComeFirst.cons {tags tags' : List (Tag × Option Bytes)} (tag : Tag)
    (rest rest' : Option Bytes) (h : ComeFirst tags tags') :
    ComeFirst ((tag, rest) :: tags) ((tag, rest') :: tags') := by
  obtain ⟨ended, last, rfl, hlen, hlast, hpre⟩ := h
  refine ⟨(tag, rest) :: ended, last, rfl, hlen, hlast, ?_⟩
  rw [List.map_cons, List.map_cons]
  exact (List.prefix_cons_inj tag).mpr hpre

/-- The tags that end in a text come first when the text goes on. -/
theorem walk_append {decode : Bytes → Run Bytes} {n fuel fuel' : Nat} {t q : Bytes}
    {tags tags' : List (Tag × Option Bytes)} (hq : IsText q)
    (h : walk decode n fuel t = .ok tags)
    (h' : walk decode (n + q.length) fuel' (t ++ q) = .ok tags') : ComeFirst tags tags' := by
  induction fuel generalizing fuel' t tags tags' with
  | zero => cases h
  | succ fuel ih =>
      cases fuel' with
      | zero => cases h'
      | succ fuel' =>
          simp only [walk] at h h'
          obtain ⟨r, hr, h⟩ := run_bind h
          rcases nextPiece_append hq hr with hlast | hgoing
          · -- nothing comes after this piece
            cases r with
            | text =>
                obtain rfl := Except.ok.inj h
                exact comeFirst_nil tags'
            | markup rest =>
                obtain rfl := walk_text hlast h
                exact comeFirst_nil tags'
            | tag tag rest =>
                obtain rfl : rest = none := hlast
                dsimp only at h
                by_cases hends : tag.endsWalk = true
                · rw [if_pos hends] at h
                  obtain rfl := Except.ok.inj h
                  exact comeFirst_last tag tags'
                · rw [if_neg hends, Option.getD_none, afterRaw_nil] at h
                  obtain ⟨more, hmore, h⟩ := run_bind h
                  obtain rfl := walk_text List.not_mem_nil hmore
                  obtain rfl := Except.ok.inj h
                  exact comeFirst_last tag tags'
          · rw [hgoing] at h'
            simp only [bind, Except.bind] at h'
            cases r with
            | text =>
                obtain rfl := Except.ok.inj h
                exact comeFirst_nil tags'
            | markup rest => exact ih h h'
            | tag tag rest =>
                simp only [Piece.goingOn] at h h'
                by_cases hends : tag.endsWalk = true
                · rw [if_pos hends] at h h'
                  obtain rfl := Except.ok.inj h
                  obtain rfl := Except.ok.inj h'
                  exact (comeFirst_nil []).cons tag rest _
                · rw [if_neg hends] at h h'
                  obtain ⟨more, hmore, h⟩ := run_bind h
                  obtain rfl := Except.ok.inj h
                  cases rest with
                  | none =>
                      rw [Option.getD_none, afterRaw_nil] at hmore
                      obtain rfl := walk_text List.not_mem_nil hmore
                      exact comeFirst_last tag tags'
                  | some rest =>
                      simp only [Option.map_some, Option.getD_some] at hmore h'
                      split at h'
                      · cases h'
                      · next more' hmore' =>
                          obtain rfl := Except.ok.inj h'
                          rcases @afterRaw_append tag rest q with hraw | hraw
                          · obtain rfl := walk_text hraw hmore
                            exact (comeFirst_nil more').cons tag _ _
                          · rw [hraw] at hmore'
                            exact (ih hmore hmore').cons tag _ _

/-! ## What a tag can add -/

local instance lawful_cut : LawfulBEq Bytes := inferInstance

/-- The tag can name a link, or open or close a form. -/
def Tag.names (t : Tag) : Bool :=
  decide (t.name = lit "form") ||
    (!t.isEnd && decide (t.name ∈ [lit "a", lit "area", lit "link"]) && (t.attr "href").isSome)

/-- `<form method=dialog>` -/
def Tag.isDialog (t : Tag) : Bool :=
  decide ((trim ((t.text "method").getD "get".toList)).map Char.toLower = "dialog".toList)

/-- `<input type=password>` -/
def Tag.isPassword (t : Tag) : Bool :=
  !t.isEnd && decide (t.name = lit "input") &&
    (t.text "type").any (fun ty => Url.eqIgnoreAsciiCase (trim ty) "password".toList)

/-- Whether a form is open after a tag, and if it has a password then. -/
def formAfter (f : Option Bool) (t : Tag) : Option Bool :=
  if t.name = lit "form" then
    if t.isEnd then none
    else
      match f with
      | some p => some p
      | none => if t.isDialog then none else some false
  else if t.isPassword then f.map (fun _ => true)
  else f

section

variable {cfg : ScanConfig} {doc : HttpsUrl}

theorem emit_candidates (out : ScanResult) (target : Except Reject (Option HttpsUrl)) (via : Via)
    (method : Method) (fields : List String) (offset : Nat) :
    out.candidates <+: (emit cfg out target via method fields offset).candidates := by
  rw [emit.eq_def]
  split
  · exact List.prefix_rfl
  · exact List.prefix_rfl
  · dsimp only
    split_ifs with hallowed hseen hmax
    · exact List.prefix_rfl
    · exact List.prefix_rfl
    · exact List.prefix_rfl
    · exact List.prefix_append _ _

theorem closeForm_candidates (out : ScanResult) (f : FormAcc) :
    out.candidates <+: (closeForm cfg out f).candidates := by
  rw [closeForm]
  split_ifs with hpassword
  · exact List.prefix_rfl
  · exact emit_candidates ..

theorem finish_candidates (sc : Scanner) : sc.out.candidates <+: (finish cfg sc).candidates := by
  rw [finish]
  cases sc.form with
  | none => exact List.prefix_rfl
  | some f => exact closeForm_candidates ..

theorem visit_candidates (sc : Scanner) (t : Tag) :
    sc.out.candidates <+: (visit cfg doc sc t).out.candidates := by
  rw [visit]
  split
  · cases t.text "href" with
    | none => exact List.prefix_rfl
    | some href =>
        dsimp only
        split
        · split_ifs
          · exact List.prefix_rfl
          · exact List.prefix_rfl
        · exact List.prefix_rfl
  split
  · cases t.text "href" with
    | none => exact List.prefix_rfl
    | some href => exact emit_candidates ..
  split
  · dsimp only
    split
    · cases t.text "href" with
      | none => exact List.prefix_rfl
      | some href => exact emit_candidates ..
    · exact List.prefix_rfl
  split
  · exact List.prefix_rfl
  split
  · cases sc.form with
    | none => exact List.prefix_rfl
    | some f => exact closeForm_candidates ..
  split
  · exact List.prefix_rfl
  · exact List.prefix_rfl

theorem visits_candidates (sc : Scanner) (ts : List Tag) :
    sc.out.candidates <+: (ts.foldl (visit cfg doc) sc).out.candidates := by
  induction ts generalizing sc with
  | nil => exact List.prefix_rfl
  | cons t ts ih => exact (visit_candidates sc t).trans (ih _)

/-- A tag that names nothing adds nothing. -/
theorem visit_names {sc : Scanner} {t : Tag} (h : t.names = false) :
    (visit cfg doc sc t).out.candidates = sc.out.candidates := by
  rw [Tag.names, Bool.or_eq_false_iff, decide_eq_false_iff_not] at h
  obtain ⟨hform, hlink⟩ := h
  have hhref : t.isEnd = false → t.name ∈ [lit "a", lit "area", lit "link"] →
      t.text "href" = none := by
    intro hend hname
    rw [hend, decide_eq_true hname, Bool.not_false, Bool.true_and, Bool.true_and] at hlink
    rw [Tag.text, Option.map_eq_none_iff]
    cases hattr : t.attr "href" with
    | none => rfl
    | some v => rw [hattr] at hlink; cases hlink
  rw [visit]
  split
  · cases t.text "href" with
    | none => rfl
    | some href =>
        dsimp only
        split
        · split_ifs
          · rfl
          · rfl
        · rfl
  split
  · next hanchor =>
      rw [hhref hanchor.2 (by rcases hanchor.1 with hname | hname <;> simp [hname])]
  split
  · next hrel =>
      rw [hhref hrel.2 (by simp [hrel.1])]
      dsimp only
      split
      · rfl
      · rfl
  split
  · next hopen => exact absurd hopen.1 hform
  split
  · next hclose => exact absurd hclose.1 hform
  split
  · rfl
  · rfl

theorem visits_names {sc : Scanner} {ts : List Tag} (h : ∀ t ∈ ts, t.names = false) :
    (ts.foldl (visit cfg doc) sc).out.candidates = sc.out.candidates := by
  induction ts generalizing sc with
  | nil => rfl
  | cons t ts ih =>
      rw [List.forall_mem_cons] at h
      rw [List.foldl_cons, ih h.2, visit_names h.1]

theorem addField_password (f : FormAcc) (t : Tag) (hend : t.isEnd = false) :
    (addField f t).has_password = (t.isPassword || f.has_password) := by
  have hinput : (if t.name = lit "input" ∧ ((t.text "type").any
      (fun ty => Url.eqIgnoreAsciiCase (trim ty) "password".toList)) = true
      then { f with has_password := true } else f).has_password =
        (t.isPassword || f.has_password) := by
    rw [Tag.isPassword, hend, Bool.not_false, Bool.true_and]
    by_cases hname : t.name = lit "input"
    · rw [decide_eq_true hname, Bool.true_and]
      cases htype : (t.text "type").any
          (fun ty => Url.eqIgnoreAsciiCase (trim ty) "password".toList) with
      | true => rw [if_pos ⟨hname, rfl⟩, Bool.true_or]
      | false => rw [if_neg (fun h => by cases h.2), Bool.false_or]
    · rw [decide_eq_false hname, Bool.false_and, if_neg (fun h => hname h.1), Bool.false_or]
  rw [addField]
  cases fieldName t with
  | none => exact hinput
  | some name =>
      have hkeep : ∀ g : FormAcc, (if g.fields.length < MAX_FIELDS ∧ name ∉ g.fields then
          { g with fields := g.fields.orderedInsert (· ≤ ·) name }
        else g).has_password = g.has_password := by
        intro g
        split_ifs
        · rfl
        · rfl
      exact (hkeep _).trans hinput

/-- The form that is open after a tag. -/
theorem visit_form (sc : Scanner) (t : Tag) :
    (visit cfg doc sc t).form.map FormAcc.has_password =
      formAfter (sc.form.map FormAcc.has_password) t := by
  have hnames : ∀ name ∈ [lit "base", lit "a", lit "area", lit "link"],
      name ≠ lit "form" ∧ name ≠ lit "input" := by decide
  have hother : t.name ∈ [lit "base", lit "a", lit "area", lit "link"] →
      formAfter (sc.form.map FormAcc.has_password) t = sc.form.map FormAcc.has_password := by
    intro hmem
    obtain ⟨hform, hinput⟩ := hnames _ hmem
    rw [formAfter.eq_def, if_neg hform, Tag.isPassword, decide_eq_false hinput, Bool.and_false,
      Bool.false_and]
    rfl
  rw [visit]
  split
  · next hbase =>
      rw [hother (by simp [hbase.1])]
      cases t.text "href" with
      | none => rfl
      | some href =>
          dsimp only
          split
          · split_ifs
            · rfl
            · rfl
          · rfl
  split
  · next hanchor =>
      rw [hother (by rcases hanchor.1 with hname | hname <;> simp [hname])]
      cases t.text "href" with
      | none => rfl
      | some href => rfl
  split
  · next hrel =>
      rw [hother (by simp [hrel.1])]
      dsimp only
      split
      · cases t.text "href" with
        | none => rfl
        | some href => rfl
      · rfl
  split
  · next hopen =>
      rw [formAfter.eq_def, if_pos hopen.1, hopen.2.1, Option.isNone_iff_eq_none.mp hopen.2.2]
      simp only [Bool.false_eq_true, if_false, Option.map_none, openForm, Tag.isDialog,
        decide_eq_true_eq]
      split_ifs
      · rfl
      · rfl
      · rfl
  split
  · next hclose =>
      rw [formAfter.eq_def, if_pos hclose.1, hclose.2]
      cases hsc : sc.form with
      | none =>
          dsimp only
          rw [hsc]
          rfl
      | some f => rfl
  split
  · next hopen hclose hfield =>
      have hform : t.name ≠ lit "form" := by
        intro hname
        have hnot : lit "form" ∉ [lit "input", lit "select", lit "textarea", lit "button"] := by
          decide
        exact hnot (hname ▸ hfield.1)
      rw [formAfter.eq_def, if_neg hform]
      cases sc.form with
      | none =>
          simp only [Option.map_none]
          split_ifs
          · rfl
          · rfl
      | some f =>
          simp only [Option.map_some]
          rw [addField_password f t hfield.2]
          cases t.isPassword with
          | true => rfl
          | false => rfl
  · next hopen hclose hfield =>
      rw [formAfter.eq_def]
      by_cases hform : t.name = lit "form"
      · rw [if_pos hform]
        cases hend : t.isEnd with
        | true => exact absurd ⟨hform, hend⟩ hclose
        | false =>
            cases hsc : sc.form with
            | none => exact absurd ⟨hform, hend, by rw [hsc]; rfl⟩ hopen
            | some f => rfl
      · have hpassword : t.isPassword = false := by
          rw [Tag.isPassword]
          cases hend : t.isEnd with
          | true => rfl
          | false =>
              have hinput : t.name ≠ lit "input" := fun hname =>
                hfield ⟨by simp [hname], hend⟩
              rw [decide_eq_false hinput]
              rfl
        rw [if_neg hform, hpassword]
        rfl

theorem visits_form (sc : Scanner) (ts : List Tag) :
    (ts.foldl (visit cfg doc) sc).form.map FormAcc.has_password =
      ts.foldl formAfter (sc.form.map FormAcc.has_password) := by
  induction ts generalizing sc with
  | nil => rfl
  | cons t ts ih => rw [List.foldl_cons, List.foldl_cons, ih, visit_form]

/-- A form that is not open, or that has a password, adds nothing at the end. -/
theorem finish_candidates_eq {sc : Scanner}
    (h : sc.form.map FormAcc.has_password ≠ some false) :
    (finish cfg sc).candidates = sc.out.candidates := by
  rw [finish]
  cases hform : sc.form with
  | none => rfl
  | some f =>
      have hpassword : f.has_password = true := by
        cases hf : f.has_password with
        | true => rfl
        | false => exact absurd (by rw [hform, Option.map_some, hf]) h
      simp only [closeForm, if_pos hpassword]

end

/-! ## Pages that are cut -/

/-- The tags of a text that `for_each_tag` visits. -/
def visited (tags : List (Tag × Option Bytes)) : List Tag :=
  (tags.map Prod.fst).filter (fun t => !t.endsWalk)

/-- A text ends in no tag that names something and in no form that is reported. -/
def EndsOutside (s : Bytes) : Prop :=
  ∀ tags, walk decodeEntities s.length (s.length + 1) s = .ok tags →
    (∀ t ∈ tags, t.2 = none → t.1.names = false) ∧
      (visited tags).foldl formAfter none ≠ some false

theorem bounded_append (cfg : ScanConfig) (body : Bytes) (hbody : IsText body) :
    ∃ q, IsText q ∧ bounded cfg body ++ q = body := by
  rw [bounded]
  split_ifs with hlen
  · refine ⟨body.drop (cutAt body cfg.max_bytes), ?_, List.take_append_drop _ _⟩
    rw [← List.take_append_drop (cutAt body cfg.max_bytes) body] at hbody
    refine (Utf8.isText_append ?_ hbody).2
    rw [List.take_append_drop] at hbody
    exact isBoundary_cutAt hbody _
  · exact ⟨[], Utf8.isText_nil, List.append_nil body⟩

theorem visit_max_bytes (cfg : ScanConfig) (m : Nat) :
    visit { cfg with max_bytes := m } = visit cfg := rfl

theorem finish_max_bytes (cfg : ScanConfig) (m : Nat) :
    finish { cfg with max_bytes := m } = finish cfg := rfl

/-- A scan that goes through, by its tags. -/
theorem scan_ok {cfg : ScanConfig} {body : Bytes} {doc : HttpsUrl}
    {tags : List (Tag × Option Bytes)} (hdoc : document cfg = .ok doc)
    (h : walk decodeEntities (bounded cfg body).length ((bounded cfg body).length + 1)
      (bounded cfg body) = .ok tags) :
    ∃ out, scan cfg body = .ok (.ok out) ∧ out.candidates =
      (finish cfg ((visited tags).foldl (visit cfg doc) (.start doc))).candidates := by
  rw [scan, hdoc]
  simp only [forEachTag, h, bind, Except.bind]
  exact ⟨_, rfl, rfl⟩

theorem scan_tags {cfg : ScanConfig} {body : Bytes} {out : ScanResult}
    (h : scan cfg body = .ok (.ok out)) :
    ∃ doc tags, document cfg = .ok doc ∧
      walk decodeEntities (bounded cfg body).length ((bounded cfg body).length + 1)
        (bounded cfg body) = .ok tags ∧
      out.candidates =
        (finish cfg ((visited tags).foldl (visit cfg doc) (.start doc))).candidates := by
  rw [scan] at h
  cases hdoc : document cfg with
  | error e =>
      rw [hdoc] at h
      cases Except.ok.inj h
  | ok doc =>
      rw [hdoc] at h
      obtain ⟨ts, hts, h⟩ := run_bind h
      obtain ⟨tags, htags, hts⟩ := run_bind hts
      obtain rfl := Except.ok.inj hts
      obtain rfl := Except.ok.inj (Except.ok.inj h)
      exact ⟨doc, tags, rfl, htags, rfl⟩

theorem visited_append (a b : List (Tag × Option Bytes)) :
    visited (a ++ b) = visited a ++ visited b := by
  rw [visited, visited, visited, List.map_append, List.filter_append]

/-- Of a page that is cut only candidates of the whole are reported, when the cut
is outside of tags and forms (and the scan of the whole does not panic). -/
theorem truncation_loses (cfg : ScanConfig) (body : Bytes) (hbody : IsText body)
    (hcut : cfg.max_bytes < body.length → EndsOutside (bounded cfg body) ∧
      ∀ t ∈ tagsRead body, ∀ a ∈ t.1.attrs, straddles a.2 = false)
    (cut : ScanResult) (hscan : scan cfg body = .ok (.ok cut)) :
    ∃ whole, scan { cfg with max_bytes := body.length } body = .ok (.ok whole) ∧
      ∀ c ∈ cut.candidates, c ∈ whole.candidates := by
  obtain ⟨doc, tags, hdoc, htags, hcands⟩ := scan_tags hscan
  have hall : bounded { cfg with max_bytes := body.length } body = body := by
    rw [bounded, if_neg (Nat.lt_irrefl _)]
  have hdoc' : document { cfg with max_bytes := body.length } = .ok doc := hdoc
  by_cases hlen : cfg.max_bytes < body.length
  · obtain ⟨hends, hpanic⟩ := hcut hlen
    obtain ⟨hnames, hform⟩ := hends tags htags
    -- the scan of the whole goes through
    have hany : (tagsRead body).any (fun t => t.1.straddles) = false := by
      rw [List.any_eq_false]
      intro t ht
      rw [Bool.not_eq_true, Tag.straddles, List.any_eq_false]
      intro a ha
      rw [hpanic t ht a ha]
      decide
    obtain ⟨ts, hts⟩ : ∃ ts, forEachTag body = .ok ts := by
      rcases forEachTag_iff hbody with ⟨hs, -⟩ | ⟨-, hok⟩
      · rw [hany] at hs
        cases hs
      · exact hok
    obtain ⟨tags', htags', -⟩ := run_bind hts
    obtain ⟨whole, hwhole, hcands'⟩ := scan_ok hdoc' (by rw [hall]; exact htags')
    refine ⟨whole, hwhole, ?_⟩
    rw [visit_max_bytes, finish_max_bytes] at hcands'
    -- the tags that end before the cut come first in it
    obtain ⟨q, hq, hsplit⟩ := bounded_append cfg body hbody
    have hwalk : walk decodeEntities ((bounded cfg body).length + q.length) (body.length + 1)
        (bounded cfg body ++ q) = .ok tags' := by
      rw [← List.length_append, hsplit]
      exact htags'
    obtain ⟨ended, last, rfl, -, hlast, hpre⟩ := walk_append hq htags hwalk
    obtain ⟨more, hmore⟩ := hpre.filter (fun t : Tag => !t.endsWalk)
    have hvisited : visited tags' = visited ended ++ more := hmore.symm
    have hnames' : ∀ t ∈ visited last, t.names = false := by
      intro t ht
      obtain ⟨x, hx, rfl⟩ := List.mem_map.mp (List.mem_of_mem_filter ht)
      exact hnames x (List.mem_append_right _ hx) (hlast x hx)
    have hclosed : ((visited (ended ++ last)).foldl (visit cfg doc) (.start doc)).form.map
        FormAcc.has_password ≠ some false := by
      rw [visits_form]
      exact hform
    intro c hc
    rw [hcands, finish_candidates_eq hclosed, visited_append, List.foldl_append,
      visits_names hnames'] at hc
    rw [hcands', hvisited, List.foldl_append]
    exact (finish_candidates _).subset ((visits_candidates _ more).subset hc)
  · have hsame : bounded cfg body = body := by rw [bounded, if_neg hlen]
    rw [hsame] at htags
    obtain ⟨whole, hwhole, hcands'⟩ := scan_ok hdoc' (by rw [hall]; exact htags)
    refine ⟨whole, hwhole, fun c hc => ?_⟩
    rw [visit_max_bytes, finish_max_bytes] at hcands'
    rw [hcands', ← hcands]
    exact hc

namespace Sample

/-- Eleven bytes of it name another page. -/
def linkPage : Bytes := lit "<a href=/rm-not>no"

def cutConfig (m : Nat) : ScanConfig := { config with max_bytes := m }

end Sample

open Route.Sample in
theorem truncation_invents : ∃ cut whole,
    scan (cutConfig 11) linkPage = .ok (.ok cut) ∧
      scan (cutConfig linkPage.length) linkPage = .ok (.ok whole) ∧
        ∃ c ∈ cut.candidates, c.identity ∉ whole.candidates.map CandidateState.identity :=
  ⟨_, _, rfl, rfl, _, List.mem_cons_self, by decide +kernel⟩

open Route.Sample in
theorem truncation_loses_text : ∃ cut whole,
    scan (cutConfig 17) linkPage = .ok (.ok cut) ∧
      scan (cutConfig linkPage.length) linkPage = .ok (.ok whole) ∧
        ∀ c ∈ cut.candidates, c ∈ whole.candidates := by
  have hends : EndsOutside (bounded (cutConfig 17) linkPage) := by
    intro tags htags
    have hwalk : walk decodeEntities (bounded (cutConfig 17) linkPage).length
        ((bounded (cutConfig 17) linkPage).length + 1) (bounded (cutConfig 17) linkPage) =
          .ok [({ name := lit "a", isEnd := false, attrs := [(lit "href", lit "/rm-not")],
                  offset := 0 },
                some (lit "n"))] := rfl
    obtain rfl := Except.ok.inj (hwalk.symm.trans htags)
    refine ⟨by decide +kernel, by decide +kernel⟩
  obtain ⟨whole, hwhole, hsub⟩ := truncation_loses (cutConfig 17) linkPage ⟨_, rfl⟩
    (fun _ => ⟨hends, by decide +kernel⟩) _ rfl
  exact ⟨_, whole, rfl, hwhole, hsub⟩

end Secdogie.Graph.Route
