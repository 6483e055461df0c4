/-
# `Secdogie.Graph.Resolve` — references resolved against a page

Resolution of an `href` or `action`, and the names of a query's keys.  Both end
in the vocabulary that a delta checks: the path is normalized and the keys are
encoded, sorted and without repetition (`queryKeys_valid`).

Encoding a second time changes nothing (`percentEncode_idem`), nor does
removing dot segments, unless an empty segment is left in front of another
(`normalizePath_idem_iff`).
-/
import Secdogie.Graph.Url
import Secdogie.Graph.DeltaRoundTrip

namespace Secdogie.Graph.Url

def MAX_QUERY_KEYS : Nat := 64

/-- `str::trim_matches` -/
def trimMatches (p : Char → Bool) (s : List Char) : List Char :=
  ((s.dropWhile p).reverse.dropWhile p).reverse

/-- The query's key names, sorted and de-duplicated; values are dropped. -/
def HttpsUrl.queryKeys (u : HttpsUrl) : List String :=
  let keys := ((u.query.getD []).splitOn '&').map (fun part => part.takeWhile (· != '='))
  let keys := keys.filter (fun k => !k.isEmpty && decide (byteLen k ≤ MAX_KEY_LEN))
  let keys := (keys.map (fun k => String.ofList (percentEncode k))).insertionSort (· ≤ ·)
  (keys.destutter (· ≠ ·)).take MAX_QUERY_KEYS

/-- `path[..=i]` for the last slash of a path, which begins with one. -/
def directory (path : List Char) : List Char :=
  if '/' ∈ path then (path.reverse.dropWhile (· != '/')).reverse else path.take 1

/-- `.ok none` is this same document. -/
def resolve (base : HttpsUrl) (reference : List Char) : Except Reject (Option HttpsUrl) :=
  let r := (trimMatches (fun c => c ∈ [' ', '\t', '\n', '\r', '\x0c']) reference).filter
    (fun c => !(c ∈ ['\t', '\n', '\r']))
  if '\\' ∈ r then .error .malformed
  else if r = [] ∨ r.head? = some '#' then .ok none
  else
    match hasScheme r with
    | some scheme =>
        if !eqIgnoreAsciiCase scheme "https".toList then .error .scheme
        else (parseHttps r).map some
    | none =>
        if "//".toList.isPrefixOf r then (parseHttps ("https:".toList ++ r)).map some
        else
          let (path_part, query) := splitPathQuery r
          let (path, query) :=
            if path_part.head? = some '/' then (normalizePath path_part, query)
            else if path_part = [] then (base.path, query.or base.query)
            else (normalizePath (directory base.path ++ path_part), query)
          .ok (some { base with path, query })

/-! ## Encoded texts -/

/-- A character that encoding leaves as it is. -/
def isPlain (c : Char) : Bool :=
  decide (0x21 ≤ c.toNat ∧ c.toNat < 0x7f ∧
    c.toNat ∉ [0x22, 0x23, 0x3c, 0x3e, 0x3f, 0x60, 0x7b, 0x7d])

/-- What a byte is written with in hex. -/
def hexChars : List Char :=
  ['%', '0', '1', '2', '3', '4', '5', '6', '7', '8', '9', 'A', 'B', 'C', 'D', 'E', 'F']

theorem hexUpper_spec : ∀ n < 16, hexUpper n ∈ hexChars := by decide

theorem toNat_ofNat_plain {n : Nat} (h : n < 0x7f) : (Char.ofNat n).toNat = n := by
  rw [Char.ofNat, dif_pos (by left; omega)]
  rfl

/-- A byte is encoded as itself, or in hex. -/
theorem percentEncodeByte_cases (b : UInt8) :
    (percentEncodeByte b = [Char.ofNat b.toNat] ∧ isPlain (Char.ofNat b.toNat) = true ∧
      b.toNat < 0x7f) ∨
      ∀ c ∈ percentEncodeByte b, c ∈ hexChars := by
  rw [percentEncodeByte]
  split_ifs with hb
  · left
    rw [isPlain, toNat_ofNat_plain hb.2.1, decide_eq_true hb]
    exact ⟨rfl, rfl, hb.2.1⟩
  · right
    have hlt := UInt8.toNat_lt b
    simp only [List.forall_mem_cons]
    exact ⟨by decide, hexUpper_spec _ (by omega), hexUpper_spec _ (by omega), nofun⟩

theorem isPlain_percentEncodeByte (b : UInt8) : ∀ c ∈ percentEncodeByte b, isPlain c = true := by
  intro c hc
  rcases percentEncodeByte_cases b with ⟨hb, hplain, -⟩ | hhex
  · rw [hb, List.mem_singleton] at hc
    rw [hc]
    exact hplain
  · have hall : ∀ c ∈ hexChars, isPlain c = true := by simp [hexChars, isPlain]
    exact hall c (hhex c hc)

theorem isPlain_percentEncode (s : List Char) : ∀ c ∈ percentEncode s, isPlain c = true := by
  intro c hc
  obtain ⟨b, -, hb⟩ := List.mem_flatMap.mp hc
  exact isPlain_percentEncodeByte b c hb

theorem utf8EncodeChar_ascii {c : Char} (h : c.toNat < 0x80) :
    String.utf8EncodeChar c = [UInt8.ofNat c.toNat] := by
  rw [String.utf8EncodeChar]
  rw [if_pos (by rw [Char.toNat] at h; omega)]
  rfl

theorem utf8EncodeChar_large {c : Char} (h : 0x80 ≤ c.toNat) :
    ∀ b ∈ String.utf8EncodeChar c, 0x80 ≤ b.toNat := by
  have hbyte : ∀ n : Nat, 0x80 ≤ n → n < 0x100 → 0x80 ≤ (UInt8.ofNat n).toNat := by
    intro n hle hlt
    rw [UInt8.toNat_ofNat']
    omega
  rw [Char.toNat] at h
  rw [String.utf8EncodeChar]
  split_ifs with h₁ h₂ h₃
  · omega
  all_goals
    simp only [List.forall_mem_cons]
  · exact ⟨hbyte _ (by omega) (by omega), hbyte _ (by omega) (by omega), nofun⟩
  · exact ⟨hbyte _ (by omega) (by omega), hbyte _ (by omega) (by omega),
      hbyte _ (by omega) (by omega), nofun⟩
  · exact ⟨hbyte _ (by omega) (by omega), hbyte _ (by omega) (by omega),
      hbyte _ (by omega) (by omega), hbyte _ (by omega) (by omega), nofun⟩

theorem percentEncode_cons (c : Char) (s : List Char) :
    percentEncode (c :: s) = (String.utf8EncodeChar c).flatMap percentEncodeByte ++ percentEncode s := by
  rw [percentEncode, bytes, List.flatMap_cons, List.flatMap_append]
  rfl

theorem percentEncode_plain_cons {c : Char} (hc : isPlain c = true) (s : List Char) :
    percentEncode (c :: s) = c :: percentEncode s := by
  rw [isPlain, decide_eq_true_eq] at hc
  have hn : (UInt8.ofNat c.toNat).toNat = c.toNat := by
    rw [UInt8.toNat_ofNat']
    omega
  rw [percentEncode_cons, utf8EncodeChar_ascii (by omega), List.flatMap_singleton,
    percentEncodeByte, hn]
  simp only [if_pos hc, Char.ofNat_toNat]
  rfl

theorem percentEncode_plain {s : List Char} (h : ∀ c ∈ s, isPlain c = true) :
    percentEncode s = s := by
  induction s with
  | nil => rfl
  | cons c s ih =>
      rw [List.forall_mem_cons] at h
      rw [percentEncode_plain_cons h.1, ih h.2]

/-- What is encoded stays as it is. -/
theorem percentEncode_idem (s : List Char) : percentEncode (percentEncode s) = percentEncode s :=
  percentEncode_plain (isPlain_percentEncode s)

/-- A character that is not one of hex comes from itself. -/
theorem mem_percentEncode {c : Char} {s : List Char} (h : c ∈ percentEncode s)
    (hhex : c ∉ hexChars) : c ∈ s := by
  obtain ⟨b, hb, hc⟩ := List.mem_flatMap.mp h
  obtain ⟨d, hd, hbd⟩ := List.mem_flatMap.mp hb
  rcases percentEncodeByte_cases b with ⟨hsingle, -, hlt⟩ | hall
  · rw [hsingle, List.mem_singleton] at hc
    by_cases hsmall : d.toNat < 0x80
    · rw [utf8EncodeChar_ascii hsmall, List.mem_singleton] at hbd
      have htoNat : b.toNat = d.toNat := by
        rw [hbd, UInt8.toNat_ofNat']
        omega
      rw [hc, htoNat, Char.ofNat_toNat]
      exact hd
    · exact absurd (utf8EncodeChar_large (by omega) b hbd) (by omega)
  · exact absurd (hall c hc) hhex

/-! ## Normalized paths -/

/-- The segments of a path, encoded, after its leading slashes. -/
def segments (path : List Char) : List (List Char) :=
  ((percentEncode (if path.head? = some '/' then path else '/' :: path)).dropWhile (· == '/')).splitOn '/'

theorem normalizePath_eq (path : List Char) :
    normalizePath path = '/' :: List.intercalate ['/'] (dotSegments [] (segments path)) := rfl

/-- No dot segment. -/
def isStaying (seg : List Char) : Bool := !isDot seg && !isDotdot seg

theorem not_mem_splitOn {a : Char} {s seg : List Char} (h : seg ∈ s.splitOn a) : a ∉ seg := by
  induction s generalizing seg with
  | nil =>
      rw [List.splitOn_nil, List.mem_singleton] at h
      rw [h]
      exact List.not_mem_nil
  | cons c s ih =>
      rw [List.splitOn_cons_eq_if_modifyHead] at h
      split_ifs at h with hc
      · rcases List.mem_cons.mp h with rfl | h
        · exact List.not_mem_nil
        · exact ih h
      · cases hs : s.splitOn a with
        | nil => exact absurd hs (List.splitOn_ne_nil a s)
        | cons first rest =>
            rw [hs, List.modifyHead_cons] at h
            rcases List.mem_cons.mp h with rfl | h
            · rw [List.mem_cons, not_or]
              refine ⟨?_, ih (by rw [hs]; exact List.mem_cons_self)⟩
              rintro rfl
              exact hc (beq_self_eq_true _)
            · exact ih (by rw [hs]; exact List.mem_cons_of_mem _ h)

theorem mem_splitOn_subset {a : Char} {s seg : List Char} (h : seg ∈ s.splitOn a) : seg ⊆ s := by
  induction s generalizing seg with
  | nil =>
      rw [List.splitOn_nil, List.mem_singleton] at h
      rw [h]
      exact List.nil_subset _
  | cons c s ih =>
      rw [List.splitOn_cons_eq_if_modifyHead] at h
      split_ifs at h with hc
      · rcases List.mem_cons.mp h with rfl | h
        · exact List.nil_subset _
        · exact List.subset_cons_of_subset c (ih h)
      · cases hs : s.splitOn a with
        | nil => exact absurd hs (List.splitOn_ne_nil a s)
        | cons first rest =>
            rw [hs, List.modifyHead_cons] at h
            rcases List.mem_cons.mp h with rfl | h
            · exact List.cons_subset_cons c (ih (by rw [hs]; exact List.mem_cons_self))
            · exact List.subset_cons_of_subset c (ih (by rw [hs]; exact List.mem_cons_of_mem _ h))

/-- What stays is what is there already, what comes and is no dot segment, and at
the end perhaps an empty segment. -/
theorem dotSegments_mem {P : List Char → Prop} {segs out : List (List Char)}
    (hout : ∀ s ∈ out, P s) (hsegs : ∀ s ∈ segs, isStaying s = true → P s) (hnil : P []) :
    ∀ s ∈ dotSegments out segs, P s := by
  induction segs generalizing out with
  | nil => exact hout
  | cons seg rest ih =>
      rw [List.forall_mem_cons] at hsegs
      have hdrop : ∀ s ∈ out.dropLast, P s := fun s hs => hout s (List.mem_of_mem_dropLast hs)
      rw [dotSegments]
      refine ih ?_ hsegs.2
      split_ifs with hdot hlast hdotdot hlast'
      · rw [List.forall_mem_append, List.forall_mem_singleton]
        exact ⟨hout, hnil⟩
      · exact hout
      · rw [List.forall_mem_append, List.forall_mem_singleton]
        exact ⟨hdrop, hnil⟩
      · exact hdrop
      · rw [List.forall_mem_append, List.forall_mem_singleton]
        refine ⟨hout, hsegs.1 ?_⟩
        rw [isStaying, Bool.eq_false_of_not_eq_true hdot, Bool.eq_false_of_not_eq_true hdotdot]
        rfl

theorem dotSegments_staying {segs out : List (List Char)} (h : ∀ s ∈ segs, isStaying s = true) :
    dotSegments out segs = out ++ segs := by
  induction segs generalizing out with
  | nil => exact (List.append_nil out).symm
  | cons seg rest ih =>
      rw [List.forall_mem_cons, isStaying, Bool.and_eq_true, Bool.not_eq_true',
        Bool.not_eq_true'] at h
      rw [dotSegments, h.1.1, h.1.2]
      simp only [Bool.false_eq_true, if_false]
      rw [ih h.2, List.append_assoc, List.singleton_append]

theorem dotSegments_ne_nil {segs out : List (List Char)} (h : segs ≠ []) :
    dotSegments out segs ≠ [] := by
  induction segs generalizing out with
  | nil => exact absurd rfl h
  | cons seg rest ih =>
      rw [dotSegments]
      cases rest with
      | nil =>
          rw [dotSegments]
          simp only [List.isEmpty_nil, if_true]
          split_ifs
          · simp
          · simp
          · simp
      | cons s rest => exact ih (List.cons_ne_nil _ _)

theorem mem_intercalate {a c : Char} {ls : List (List Char)} (h : c ∈ [a].intercalate ls) :
    c = a ∨ ∃ l ∈ ls, c ∈ l := by
  induction ls with
  | nil => cases h
  | cons l ls ih =>
      cases ls with
      | nil =>
          rw [List.intercalate_singleton] at h
          exact .inr ⟨l, List.mem_cons_self, h⟩
      | cons l' ls =>
          rw [List.intercalate_cons_cons, List.mem_append, List.mem_append,
            List.mem_singleton] at h
          rcases h with (h | h) | h
          · exact .inr ⟨l, List.mem_cons_self, h⟩
          · exact .inl h
          · rcases ih h with h | ⟨m, hm, hc⟩
            · exact .inl h
            · exact .inr ⟨m, List.mem_cons_of_mem _ hm, hc⟩

/-- Without its leading slashes a text that is put together has the last of its
segments. -/
theorem splitOn_dropWhile {ls : List (List Char)} (hls : ls ≠ []) (h : ∀ l ∈ ls, '/' ∉ l) :
    ((['/'].intercalate ls).dropWhile (· == '/')).splitOn '/' <:+ ls := by
  induction ls with
  | nil => exact absurd rfl hls
  | cons l ls ih =>
      cases l with
      | nil =>
          cases ls with
          | nil => exact List.suffix_refl _
          | cons l' ls =>
              rw [List.intercalate_cons_cons, List.nil_append, List.singleton_append,
                List.dropWhile_cons_of_pos (by decide)]
              exact (ih (List.cons_ne_nil _ _) fun l hl => h l (List.mem_cons_of_mem _ hl)).trans
                (List.suffix_cons [] _)
      | cons c l =>
          have hc : ¬ (c == '/') = true := by
            rw [beq_iff_eq]
            rintro rfl
            exact h _ List.mem_cons_self List.mem_cons_self
          have hfix : (['/'].intercalate ((c :: l) :: ls)).dropWhile (· == '/') =
              ['/'].intercalate ((c :: l) :: ls) := by
            rw [List.intercalate_cons_cons_left, List.dropWhile_cons_of_neg (p := (· == '/')) hc]
          rw [hfix, List.splitOn_intercalate '/' h (List.cons_ne_nil _ _)]

section

variable (path : List Char)

theorem segments_ne_nil : segments path ≠ [] := List.splitOn_ne_nil _ _

theorem staying_spec : ∀ seg ∈ dotSegments [] (segments path),
    isStaying seg = true ∧ '/' ∉ seg ∧ ∀ c ∈ seg, isPlain c = true := by
  refine dotSegments_mem nofun (fun seg hseg hstay => ⟨hstay, not_mem_splitOn hseg, fun c hc => ?_⟩)
    ⟨by decide, List.not_mem_nil, nofun⟩
  exact isPlain_percentEncode _ c
    ((List.dropWhile_suffix _).subset (mem_splitOn_subset hseg hc))

theorem normalizePath_plain : ∀ c ∈ normalizePath path, isPlain c = true := by
  intro c hc
  rw [normalizePath_eq, List.mem_cons] at hc
  rcases hc with rfl | hc
  · decide
  · rcases mem_intercalate hc with rfl | ⟨seg, hseg, hc⟩
    · decide
    · exact (staying_spec path seg hseg).2.2 c hc

/-- Normalizing a second time only takes leading slashes away. -/
theorem normalizePath_twice : normalizePath (normalizePath path) =
    '/' :: (['/'].intercalate (dotSegments [] (segments path))).dropWhile (· == '/') := by
  have hsuffix := splitOn_dropWhile (@dotSegments_ne_nil _ [] (segments_ne_nil path))
    fun l hl => (staying_spec path l hl).2.1
  have hencode := percentEncode_plain (normalizePath_plain path)
  have hhead : (normalizePath path).head? = some '/' := rfl
  have hsegs : segments (normalizePath path) =
      ((['/'].intercalate (dotSegments [] (segments path))).dropWhile (· == '/')).splitOn '/' := by
    rw [segments, if_pos hhead, hencode, normalizePath_eq,
      List.dropWhile_cons_of_pos (by decide)]
  rw [normalizePath_eq (normalizePath path), hsegs,
    dotSegments_staying fun seg hseg => (staying_spec path seg (hsuffix.subset hseg)).1,
    List.nil_append, List.intercalate_splitOn]

/-- A path stays as it is normalized unless an empty segment is left in front of
another. -/
theorem normalizePath_fixed_iff : normalizePath (normalizePath path) = normalizePath path ↔
    ¬ ∃ seg more, dotSegments [] (segments path) = [] :: seg :: more := by
  rw [normalizePath_twice, normalizePath_eq, List.cons.injEq, eq_self_iff_true, true_and]
  have hne := @dotSegments_ne_nil _ [] (segments_ne_nil path)
  have hslash := fun l hl => (staying_spec path l hl).2.1
  generalize dotSegments [] (segments path) = ls at hne hslash
  cases ls with
  | nil => exact absurd rfl hne
  | cons l ls =>
      cases l with
      | nil =>
          cases ls with
          | nil => simp
          | cons l' ls =>
              have hlead : ['/'].intercalate ([] :: l' :: ls) = '/' :: ['/'].intercalate (l' :: ls) := by
                rw [List.intercalate_cons_cons, List.nil_append, List.singleton_append]
              rw [hlead, List.dropWhile_cons_of_pos (by decide)]
              refine ⟨fun h => ?_, fun h => absurd ⟨l', ls, rfl⟩ h⟩
              have hlen := congrArg List.length h
              have hle := (List.dropWhile_suffix (p := (· == '/'))
                (l := ['/'].intercalate (l' :: ls))).length_le
              rw [List.length_cons] at hlen
              omega
      | cons c l =>
          have hc : ¬ (c == '/') = true := by
            rw [beq_iff_eq]
            rintro rfl
            exact hslash _ List.mem_cons_self List.mem_cons_self
          rw [List.intercalate_cons_cons_left, List.dropWhile_cons_of_neg (p := (· == '/')) hc]
          simp

end

/-! ## Empty segments in front -/

/-- How many segments stand after more of them, of `d` before. -/
def depth : Nat → List (List Char) → Nat
  | d, [] => d
  | d, seg :: rest => depth (if isDot seg then d else if isDotdot seg then d - 1 else d + 1) rest

/-- The dot segments never take the first segment that stands away. -/
def Keeps (d : Nat) (segs : List (List Char)) : Prop := ∀ k ≤ segs.length, 0 < depth d (segs.take k)

/-- There is an empty segment, and others after it, that has all before it taken
away and is not taken away itself. -/
def LeadsEmpty (d : Nat) (segs : List (List Char)) : Prop :=
  ∃ pre post, segs = pre ++ [] :: post ∧ depth d pre = 0 ∧ post ≠ [] ∧ Keeps 1 post

theorem keeps_nil {d : Nat} : Keeps d [] ↔ 0 < d := by
  constructor
  · exact fun h => h 0 le_rfl
  · intro h k hk
    obtain rfl := Nat.le_zero.mp hk
    exact h

theorem keeps_cons {d : Nat} {seg : List Char} {rest : List (List Char)} :
    Keeps d (seg :: rest) ↔
      0 < d ∧ Keeps (if isDot seg then d else if isDotdot seg then d - 1 else d + 1) rest := by
  constructor
  · refine fun h => ⟨h 0 (Nat.zero_le _), fun k hk => ?_⟩
    exact h (k + 1) (Nat.succ_le_succ hk)
  · rintro ⟨hd, h⟩ k hk
    cases k with
    | zero => exact hd
    | succ k => exact h k (Nat.le_of_succ_le_succ hk)

theorem Keeps.pos {d : Nat} {segs : List (List Char)} (h : Keeps d segs) : 0 < d :=
  h 0 (Nat.zero_le _)

theorem leadsEmpty_cons {d : Nat} {seg : List Char} {rest : List (List Char)} :
    LeadsEmpty d (seg :: rest) ↔ (seg = [] ∧ d = 0 ∧ rest ≠ [] ∧ Keeps 1 rest) ∨
      LeadsEmpty (if isDot seg then d else if isDotdot seg then d - 1 else d + 1) rest := by
  constructor
  · rintro ⟨pre, post, hsplit, hdepth, hpost, hkeeps⟩
    cases pre with
    | nil =>
        obtain ⟨rfl, rfl⟩ := List.cons.inj hsplit
        exact .inl ⟨rfl, hdepth, hpost, hkeeps⟩
    | cons p pre =>
        obtain ⟨rfl, rfl⟩ := List.cons.inj hsplit
        exact .inr ⟨pre, post, rfl, hdepth, hpost, hkeeps⟩
  · rintro (⟨rfl, hd, hpost, hkeeps⟩ | ⟨pre, post, rfl, hdepth, hpost, hkeeps⟩)
    · exact ⟨[], rest, rfl, hd, hpost, hkeeps⟩
    · exact ⟨seg :: pre, post, rfl, hdepth, hpost, hkeeps⟩

theorem not_leadsEmpty_nil {d : Nat} : ¬ LeadsEmpty d [] := by
  rintro ⟨pre, post, hsplit, -⟩
  cases pre <;> cases hsplit

/-- The first of the segments is empty, and there are others. -/
def Led (ls : List (List Char)) : Prop := ls.head? = some [] ∧ 1 < ls.length

theorem led_iff {ls : List (List Char)} : Led ls ↔ ∃ seg more, ls = [] :: seg :: more := by
  constructor
  · rintro ⟨hhead, hlen⟩
    cases ls with
    | nil => cases hhead
    | cons l ls =>
        obtain rfl := Option.some.inj hhead
        cases ls with
        | nil => exact absurd hlen (Nat.lt_irrefl 1)
        | cons seg more => exact ⟨seg, more, rfl⟩
  · rintro ⟨seg, more, rfl⟩
    exact ⟨rfl, by simp⟩

theorem led_append {ls : List (List Char)} {seg : List Char} :
    Led (ls ++ [seg]) ↔ ls.head? = some [] := by
  cases ls with
  | nil => simp [Led]
  | cons l ls => simp [Led]

theorem head_append {ls : List (List Char)} {seg : List Char} :
    (ls ++ [seg]).head? = some [] ↔ ls.head? = some [] ∨ ls = [] ∧ seg = [] := by
  cases ls with
  | nil => simp
  | cons l ls => simp

theorem head_dropLast {ls : List (List Char)} :
    ls.dropLast.head? = some [] ↔ ls.head? = some [] ∧ 1 < ls.length := by
  cases ls with
  | nil => simp
  | cons l ls =>
      cases ls with
      | nil => simp
      | cons l' ls => simp

/-- What is left has an empty segment in front of others if one was there and is
kept, or comes and leads. -/
theorem led_dotSegments {segs out : List (List Char)} : Led (dotSegments out segs) ↔
    (out.head? = some [] ∧ Keeps out.length segs ∧ (1 < out.length ∨ segs ≠ [])) ∨
      LeadsEmpty out.length segs := by
  induction segs generalizing out with
  | nil =>
      rw [dotSegments, or_iff_left not_leadsEmpty_nil, keeps_nil, Led]
      constructor
      · exact fun ⟨hhead, hlen⟩ => ⟨hhead, by omega, .inl hlen⟩
      · rintro ⟨hhead, -, hlen | hne⟩
        · exact ⟨hhead, hlen⟩
        · exact absurd rfl hne
  | cons seg rest ih =>
      have hpos : out.head? = some [] → 0 < out.length := by
        cases out with
        | nil => exact nofun
        | cons l out => exact fun _ => Nat.succ_pos _
      have hnil : isDot [] = false ∧ isDotdot [] = false := by decide
      rw [dotSegments, keeps_cons, leadsEmpty_cons]
      cases rest with
      | nil =>
          -- the last segment
          rw [dotSegments, or_iff_left not_leadsEmpty_nil, keeps_nil]
          simp only [List.isEmpty_nil, if_true, ne_eq, not_true, false_and, and_false, or_false,
            List.cons_ne_nil, not_false_eq_true, or_true, and_true]
          split_ifs with hdot hdotdot
          · rw [led_append]
            exact ⟨fun h => ⟨h, hpos h, hpos h⟩, fun h => h.1⟩
          · rw [led_append, head_dropLast]
            exact ⟨fun h => ⟨h.1, hpos h.1, by omega⟩, fun h => ⟨h.1, by omega⟩⟩
          · rw [led_append]
            exact ⟨fun h => ⟨h, hpos h, Nat.succ_pos _⟩, fun h => h.1⟩
      | cons r rest =>
          simp only [List.isEmpty_cons, Bool.false_eq_true, if_false]
          rw [ih]
          simp only [ne_eq, List.cons_ne_nil, not_false_eq_true, or_true, and_true, true_and]
          cases hdot : isDot seg with
          | true =>
              have hseg : seg ≠ [] := by
                rintro rfl
                exact absurd (hdot.symm.trans hnil.1) (by decide)
              simp only [if_true, hseg, false_and, false_or]
              exact ⟨Or.imp_left fun h => ⟨h.1, h.2.pos, h.2⟩, Or.imp_left fun h => ⟨h.1, h.2.2⟩⟩
          | false =>
              cases hdotdot : isDotdot seg with
              | true =>
                  have hseg : seg ≠ [] := by
                    rintro rfl
                    exact absurd (hdotdot.symm.trans hnil.2) (by decide)
                  simp only [if_true, Bool.false_eq_true, if_false, hseg, false_and, false_or,
                    List.length_dropLast, head_dropLast]
                  refine ⟨Or.imp_left fun h => ⟨h.1.1, by omega, h.2⟩,
                    Or.imp_left fun h => ⟨⟨h.1, ?_⟩, h.2.2⟩⟩
                  have hkept := h.2.2.pos
                  omega
              | false =>
                  simp only [Bool.false_eq_true, if_false, List.length_append,
                    List.length_singleton, head_append]
                  constructor
                  · rintro (⟨h | ⟨rfl, hseg⟩, hkeeps⟩ | hleads)
                    · exact .inl ⟨h, hpos h, hkeeps⟩
                    · exact .inr (.inl ⟨hseg, rfl, hkeeps⟩)
                    · exact .inr (.inr hleads)
                  · rintro (⟨h, -, hkeeps⟩ | ⟨hseg, hout, hkeeps⟩ | hleads)
                    · exact .inl ⟨.inl h, hkeeps⟩
                    · obtain rfl := List.eq_nil_of_length_eq_zero hout
                      exact .inl ⟨.inr ⟨rfl, hseg⟩, hkeeps⟩
                    · exact .inr hleads

/-- Normalizing is idempotent on a path unless an empty segment leads. -/
theorem normalizePath_idem_iff (path : List Char) :
    normalizePath (normalizePath path) = normalizePath path ↔ ¬ LeadsEmpty 0 (segments path) := by
  rw [normalizePath_fixed_iff, ← led_iff, led_dotSegments]
  simp

/-! ## Query keys -/

theorem pairwise_lt {l : List String} (hle : l.Pairwise (· ≤ ·)) (hne : l.IsChain (· ≠ ·)) :
    l.Pairwise (· < ·) := by
  rw [← List.isChain_iff_pairwise] at hle ⊢
  induction l with
  | nil => exact List.isChain_nil
  | cons a l ih =>
      cases l with
      | nil => exact List.isChain_singleton a
      | cons b l =>
          rw [List.isChain_cons_cons] at hle hne ⊢
          exact ⟨lt_of_le_of_ne hle.1 hne.1, ih hle.2 hne.2⟩

theorem length_percentEncode (s : List Char) : (percentEncode s).length ≤ 3 * byteLen s := by
  have hbyte : ∀ b, (percentEncodeByte b).length ≤ 3 := by
    intro b
    rw [percentEncodeByte]
    split_ifs
    · exact Nat.le_add_left 1 2
    · exact le_rfl
  have hbytes : ∀ bs : List UInt8, (bs.flatMap percentEncodeByte).length ≤ 3 * bs.length := by
    intro bs
    induction bs with
    | nil => exact le_rfl
    | cons b bs ih =>
        have hb := hbyte b
        rw [List.flatMap_cons, List.length_append, List.length_cons]
        omega
  induction s with
  | nil => exact le_rfl
  | cons c s ih =>
      have hc := hbytes (String.utf8EncodeChar c)
      rw [String.length_utf8EncodeChar] at hc
      rw [percentEncode_cons, List.length_append, byteLen_cons]
      omega

theorem utf8Size_plain {c : Char} (h : isPlain c = true) : c.utf8Size = 1 := by
  rw [isPlain, decide_eq_true_eq] at h
  rw [← String.length_utf8EncodeChar, utf8EncodeChar_ascii (by omega)]
  rfl

theorem byteLen_percentEncode (s : List Char) : byteLen (percentEncode s) ≤ 3 * byteLen s := by
  rw [byteLen_eq_length fun c hc => utf8Size_plain (isPlain_percentEncode s c hc)]
  exact length_percentEncode s

theorem percentEncode_ne_nil {s : List Char} (h : s ≠ []) : percentEncode s ≠ [] := by
  cases s with
  | nil => exact absurd rfl h
  | cons c s =>
      rw [percentEncode_cons]
      cases hc : String.utf8EncodeChar c with
      | nil => exact absurd hc String.utf8EncodeChar_ne_nil
      | cons b bs =>
          rw [List.flatMap_cons, percentEncodeByte]
          split_ifs
          · exact List.cons_ne_nil _ _
          · exact List.cons_ne_nil _ _

/-- A key as it is reported is one that a delta may name. -/
theorem isQueryKey_encode {k : List Char} (hne : k ≠ []) (hlen : byteLen k ≤ MAX_KEY_LEN)
    (hamp : '&' ∉ k) (heq : '=' ∉ k) : isQueryKey (String.ofList (percentEncode k)) = true := by
  have hmax : MAX_KEY_LEN = 128 := rfl
  have hsize := byteLen_percentEncode k
  have hne' : (String.ofList (percentEncode k) != "") = true := by
    rw [bne_iff_ne]
    intro h
    have hnil := congrArg String.toList h
    rw [String.toList_ofList] at hnil
    exact percentEncode_ne_nil hne hnil
  have hamp' : '&' ∉ percentEncode k := fun h => hamp (mem_percentEncode h (by decide))
  have heq' : '=' ∉ percentEncode k := fun h => heq (mem_percentEncode h (by decide))
  rw [isQueryKey, hne', utf8ByteSize_ofList, decide_eq_true (by omega), String.toList_ofList,
    percentEncode_idem, beq_self_eq_true]
  simp [hamp', heq']

/-- The keys of a query are ones that a delta may name. -/
theorem queryKeys_valid (u : HttpsUrl) : SortedEntries 64 isQueryKey u.queryKeys where
  length_le := List.length_take_le _ _
  sorted := by
    refine List.Pairwise.sublist (List.take_sublist _ _) (pairwise_lt ?_ (List.isChain_destutter _ _))
    exact (List.pairwise_insertionSort _ _).sublist (List.destutter_sublist _ _)
  each_ok := by
    intro s hs
    have hs := (List.destutter_sublist _ _).subset (List.mem_of_mem_take hs)
    rw [List.mem_insertionSort] at hs
    obtain ⟨k, hk, rfl⟩ := List.mem_map.mp hs
    obtain ⟨hk, hfilter⟩ := List.mem_filter.mp hk
    obtain ⟨part, hpart, rfl⟩ := List.mem_map.mp hk
    rw [Bool.and_eq_true, Bool.not_eq_true', List.isEmpty_eq_false_iff, decide_eq_true_eq] at hfilter
    refine isQueryKey_encode hfilter.1 hfilter.2 (fun h => ?_) (fun h => ?_)
    · exact not_mem_splitOn hpart ((List.takeWhile_prefix _).subset h)
    · exact absurd (List.mem_takeWhile_imp h) (by decide)

end Secdogie.Graph.Url
