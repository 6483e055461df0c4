/-
# `Secdogie.Agent.NodeLines` — what the text of an observation tells of its nodes

The text that `_content_hash_for` hashes begins with the window, the
generation and the box, and these can be read back from it (`head_inj`).  Then
comes a line for each node, joined of texts that may hold the separators
themselves.  `plain_iff` says which nodes can be read back: none at all, or a
single one that is flat and has no separator in it.
-/
import Secdogie.Agent.Observation

namespace Secdogie.Agent.Fusion

/-! ## The lines of the text -/

/-- What follows the three names of a node in its line. -/
def suffix (n : SemanticNode) : List Char :=
  (if n.path_index = [] then [] else ("@" ++ ".".intercalate (n.path_index.map toString)).toList) ++
    match n.visual_reference with
    | none => []
    | some ref => '#' :: ref.content_hash.toList

/-- The line of the bitmap, with its line break. -/
def visualLine : Option VisualReference → List Char
  | none => []
  | some ref => '\n' :: ("vref:".toList ++ ref.content_hash.toList)

/-- The lines of the nodes and of the bitmap, each after a line break. -/
def tail (nodes : List SemanticNode) (visual : Option VisualReference) : List Char :=
  nodes.flatMap (fun n => '\n' :: (entry n).toList) ++ visualLine visual

def head (window : ℤ × ℤ) (generation : ℤ) (g : Geometry) : List Char :=
  (toString window.1).toList ++ ':' :: ((toString window.2).toList ++ '\n' ::
    ((toString generation).toList ++ '\n' :: ((toString g.x).toList ++ ',' ::
      ((toString g.y).toList ++ ',' :: ((toString g.w).toList ++ ',' :: (toString g.h).toList)))))

theorem intercalate_cons_eq {α : Type} (s : α) (w : List α) (ws : List (List α)) :
    [s].intercalate (w :: ws) = w ++ ws.flatMap (s :: ·) := by
  induction ws generalizing w with
  | nil => simp
  | cons v ws ih => rw [List.intercalate_cons_cons, ih v, List.flatMap_cons]; simp

theorem entry_toList (n : SemanticNode) :
    (entry n).toList =
      n.role.toList ++ '|' :: (n.name.toList ++ '|' :: (n.automation_id.toList ++ suffix n)) := by
  unfold entry suffix
  rcases n.visual_reference with - | ref <;> by_cases h : n.path_index = [] <;>
    simp [h]

/-- The text, as its head and its lines. -/
theorem text_toList (source : String) (window : ℤ × ℤ) (generation : ℤ) (g : Geometry)
    (nodes : List SemanticNode) (visual : Option VisualReference) :
    ("\n".intercalate (hash_parts source window generation g nodes visual)).toList =
      source.toList ++ '\n' :: (head window generation g ++ tail nodes visual) := by
  unfold hash_parts tail head
  rcases visual with - | ref <;>
    simp [intercalate_cons_eq, visualLine, List.flatMap_map]

/-! ## The head -/

def numeral (c : Char) : Bool := c.isDigit || c == '-'

theorem numeral_int (i : ℤ) : ∀ c ∈ (toString i).toList, numeral c = true := by
  intro c hc
  rw [Int.toString_eq_repr, Int.repr_eq_if] at hc
  have hdigits : ∀ n : ℕ, c ∈ n.repr.toList → numeral c = true := fun n hn => by
    rw [Nat.repr_eq_ofList_toDigits, String.toList_ofList] at hn
    rw [numeral, Nat.isDigit_of_mem_toDigits (by omega) (by omega) hn, Bool.true_or]
  split_ifs at hc with h
  · exact hdigits _ hc
  · rw [String.toList_append, List.mem_append] at hc
    rcases hc with hc | hc
    · rw [List.mem_singleton.mp hc]
      rfl
    · exact hdigits _ hc

theorem numeral_cons {c : Char} (h : numeral c = false) (t : List Char) :
    ∀ x ∈ (c :: t).head?, numeral x = false := by
  intro x hx
  rwa [← Option.mem_some_iff.mp hx]

theorem run_inj {α : Type} {p : α → Bool} {a b t t' : List α} (ha : ∀ c ∈ a, p c = true)
    (hb : ∀ c ∈ b, p c = true) (ht : ∀ c ∈ t.head?, p c = false) (ht' : ∀ c ∈ t'.head?, p c = false)
    (h : a ++ t = b ++ t') : a = b ∧ t = t' := by
  have hrun : ∀ {a t : List α}, (∀ c ∈ a, p c = true) → (∀ c ∈ t.head?, p c = false) →
      (a ++ t).takeWhile p = a := by
    intro a t ha ht
    rw [List.takeWhile_append_of_pos ha]
    cases t with
    | nil => simp
    | cons c t => simp [ht c rfl]
  have hsame : a = b := by rw [← hrun ha ht, h, hrun hb ht']
  subst hsame
  exact ⟨rfl, List.append_cancel_left h⟩

theorem cut_inj {α : Type} [DecidableEq α] {c : α} {a b t t' : List α} (ha : c ∉ a) (hb : c ∉ b)
    (h : a ++ c :: t = b ++ c :: t') : a = b ∧ t = t' := by
  have hnot : ∀ {a : List α}, c ∉ a → ∀ x ∈ a, (x != c) = true := fun ha x hx =>
    bne_iff_ne.mpr fun hxc => ha (hxc ▸ hx)
  have hstop : ∀ t : List α, ∀ x ∈ (c :: t).head?, (x != c) = false := by
    intro t x hx
    obtain rfl := Option.mem_some_iff.mp hx
    exact bne_self_eq_false c
  obtain ⟨hsame, hrest⟩ := run_inj (hnot ha) (hnot hb) (hstop t) (hstop t') h
  exact ⟨hsame, (List.cons.inj hrest).2⟩

/-- A number is read back up to what cannot belong to it. -/
theorem int_run {i j : ℤ} {t t' : List Char} (ht : ∀ c ∈ t.head?, numeral c = false)
    (ht' : ∀ c ∈ t'.head?, numeral c = false)
    (h : (toString i).toList ++ t = (toString j).toList ++ t') : i = j ∧ t = t' := by
  obtain ⟨hnum, hrest⟩ := run_inj (numeral_int i) (numeral_int j) ht ht' h
  exact ⟨Int.repr_injective (String.toList_inj.mp hnum), hrest⟩

theorem tail_head (nodes : List SemanticNode) (visual : Option VisualReference) :
    ∀ c ∈ (tail nodes visual).head?, numeral c = false := by
  intro c hc
  cases nodes with
  | nil =>
      rcases visual with - | ref
      · simp [tail, visualLine] at hc
      · simp only [tail, visualLine, List.flatMap_nil, List.nil_append, List.head?_cons,
          Option.mem_some_iff] at hc
        subst hc; decide
  | cons n nodes =>
      simp only [tail, List.flatMap_cons, List.cons_append, List.head?_cons,
        Option.mem_some_iff] at hc
      subst hc; decide

theorem head_inj {w w' : ℤ × ℤ} {g g' : ℤ} {b b' : Geometry} {t t' : List Char}
    (ht : ∀ c ∈ t.head?, numeral c = false) (ht' : ∀ c ∈ t'.head?, numeral c = false)
    (h : head w g b ++ t = head w' g' b' ++ t') : w = w' ∧ g = g' ∧ b = b' ∧ t = t' := by
  have hcolon := numeral_cons (c := ':') rfl
  have hbreak := numeral_cons (c := '\n') rfl
  have hcomma := numeral_cons (c := ',') rfl
  simp only [head, List.append_assoc, List.cons_append] at h
  obtain ⟨hid, h⟩ := int_run (hcolon _) (hcolon _) h
  obtain ⟨hpid, h⟩ := int_run (hbreak _) (hbreak _) (List.cons.inj h).2
  obtain ⟨hgen, h⟩ := int_run (hbreak _) (hbreak _) (List.cons.inj h).2
  obtain ⟨hx, h⟩ := int_run (hcomma _) (hcomma _) (List.cons.inj h).2
  obtain ⟨hy, h⟩ := int_run (hcomma _) (hcomma _) (List.cons.inj h).2
  obtain ⟨hw, h⟩ := int_run (hcomma _) (hcomma _) (List.cons.inj h).2
  obtain ⟨hh, h⟩ := int_run ht ht' (List.cons.inj h).2
  refine ⟨Prod.ext hid hpid, hgen, ?_, h⟩
  cases b; cases b'
  simp only at hx hy hw hh
  simp [hx, hy, hw, hh]

/-! ## The nodes -/

/-- No other nodes have these lines. -/
def Plain (visual : Option VisualReference) : List SemanticNode → Prop
  | [] => ∀ ref, visual = some ref → ref.content_hash.toList.count '|' < 2
  | [n] =>
      visual = none ∧ n.path_index = [] ∧ n.visual_reference = none ∧
        '|' ∉ n.role.toList ∧ '|' ∉ n.name.toList ∧ '|' ∉ n.automation_id.toList ∧
        ¬ "vref:".toList <+: n.role.toList ∧ '#' ∉ n.automation_id.toList ∧
        ¬ "\nvref:".toList <:+: n.automation_id.toList ∧
        ∀ path : List ℕ, path ≠ [] →
          ¬ ("@" ++ ".".intercalate (path.map toString)).toList <:+ n.automation_id.toList
  | _ => False

/-- A node with nothing but its three names. -/
def bare (role name automation_id : List Char) : SemanticNode where
  role := .ofList role
  name := .ofList name
  automation_id := .ofList automation_id
  bounds := {}

theorem entry_bare (r n a : List Char) :
    (entry (bare r n a)).toList = r ++ '|' :: (n ++ '|' :: a) := by
  rw [entry_toList]
  simp [bare, suffix]

theorem tail_bare (r n a : List Char) :
    tail [bare r n a] none = '\n' :: (r ++ '|' :: (n ++ '|' :: a)) := by
  simp [tail, visualLine, entry_bare]

theorem two_le_count_entry (n : SemanticNode) : 2 ≤ (entry n).toList.count '|' := by
  rw [entry_toList]
  simp only [List.count_append, List.count_cons_self]
  omega

theorem two_mul_length_le (nodes : List SemanticNode) (visual : Option VisualReference) :
    2 * nodes.length ≤ (tail nodes visual).count '|' := by
  induction nodes with
  | nil => simp
  | cons n nodes ih =>
      have hn := two_le_count_entry n
      simp only [tail, List.flatMap_cons, List.append_assoc, List.cons_append, List.count_append,
        List.length_cons] at ih ⊢
      rw [List.count_cons_of_ne (by decide)]
      simp only [List.count_append]
      omega

/-- A text with two bars in it is a line of a bare node. -/
theorem exists_bare {s : List Char} (h : 2 ≤ s.count '|') :
    ∃ r n a, s = r ++ '|' :: (n ++ '|' :: a) := by
  obtain ⟨r, t, rfl, hr⟩ := List.eq_append_cons_of_mem (List.count_pos_iff.mp (by omega : 0 < s.count '|'))
  have ht : 0 < t.count '|' := by
    rw [List.count_append, List.count_cons_self, List.count_eq_zero_of_not_mem hr] at h
    omega
  obtain ⟨n, a, rfl⟩ := List.append_of_mem (List.count_pos_iff.mp ht)
  exact ⟨r, n, a, rfl⟩

theorem start_of_append {pre r t : List Char} {c : Char} (hc : c ∉ pre)
    (h : pre <+: r ++ c :: t) : pre <+: r := by
  rcases List.prefix_or_prefix_of_prefix h (List.prefix_append r (c :: t)) with hpre | ⟨s, rfl⟩
  · exact hpre
  · obtain ⟨s', hs⟩ := h
    rw [List.append_assoc] at hs
    cases s with
    | nil => simp
    | cons d s =>
        obtain ⟨rfl, -⟩ := List.cons.inj (List.append_cancel_left hs)
        exact absurd (List.mem_append_right r List.mem_cons_self) hc

/-- Nothing can be read in place of a single node that is plain. -/
theorem eq_of_plain {n m : SemanticNode} {visual : Option VisualReference} (h : Plain none [n])
    (heq : (entry m).toList ++ visualLine visual = (entry n).toList) : m.key = n.key := by
  obtain ⟨-, hpath, href, hr, hn, ha, -, hhash, hvref, hdots⟩ := h
  have hsuffix : suffix n = [] := by simp [suffix, hpath, href]
  have hcount : (entry n).toList.count '|' = 2 := by
    rw [entry_toList, hsuffix, List.append_nil]
    simp [List.count_eq_zero_of_not_mem, hr, hn, ha]
  rw [entry_toList m] at heq
  have hm : (m.role.toList ++ '|' :: (m.name.toList ++ '|' ::
      (m.automation_id.toList ++ suffix m ++ visualLine visual))).count '|' = 2 := by
    rw [← hcount, ← heq]
    simp
  have hmr : '|' ∉ m.role.toList := fun hin => by
    have := List.count_pos_iff.mpr hin
    simp only [List.count_append, List.count_cons_self] at hm
    omega
  have hmn : '|' ∉ m.name.toList := fun hin => by
    have := List.count_pos_iff.mpr hin
    simp only [List.count_append, List.count_cons_self] at hm
    omega
  rw [entry_toList n, hsuffix, List.append_nil] at heq
  simp only [List.append_assoc, List.cons_append] at heq
  obtain ⟨hrole, heq⟩ := cut_inj hmr hr heq
  obtain ⟨hname, haid⟩ := cut_inj hmn hn heq
  have hempty : suffix m ++ visualLine visual = [] := by
    rcases visual with - | ref
    · rcases hmref : m.visual_reference with - | ref
      · by_cases hmpath : m.path_index = []
        · simp [suffix, hmpath, hmref, visualLine]
        · refine absurd ⟨m.automation_id.toList, ?_⟩ (hdots m.path_index hmpath)
          rw [← haid]
          simp [suffix, hmpath, hmref, visualLine]
      · refine absurd ?_ hhash
        rw [← haid]
        simp [suffix, hmref]
    · refine absurd ⟨m.automation_id.toList ++ suffix m, ref.content_hash.toList, ?_⟩ hvref
      rw [← haid]
      simp [visualLine]
  rw [hempty, List.append_nil] at haid
  simp only [SemanticNode.key, String.toList_inj.mp hrole, String.toList_inj.mp hname,
    String.toList_inj.mp haid]

theorem keys_of_plain {nodes nodes' : List SemanticNode} {visual visual' : Option VisualReference}
    (h : Plain visual nodes) (heq : tail nodes' visual' = tail nodes visual) :
    nodes'.map SemanticNode.key = nodes.map SemanticNode.key := by
  have hbars := two_mul_length_le nodes' visual'
  rw [heq] at hbars
  rcases nodes with - | ⟨n, - | ⟨n', rest⟩⟩
  · have hfew : (tail [] visual).count '|' < 2 := by
      rcases visual with - | ref
      · simp [tail, visualLine]
      · have := h ref rfl
        simpa [tail, visualLine] using this
    rw [List.length_eq_zero_iff.mp (by omega : nodes'.length = 0)]
  · obtain ⟨rfl, hpath, href, hr, hn, ha, hstart, -⟩ := id h
    have htail : tail [n] none = '\n' :: (entry n).toList := by simp [tail, visualLine]
    have htwo : (tail [n] none).count '|' = 2 := by
      rw [htail, entry_toList]
      simp [suffix, hpath, href, List.count_eq_zero_of_not_mem, hr, hn, ha]
    rcases nodes' with - | ⟨m, - | ⟨m', rest⟩⟩
    · rcases visual' with - | ref
      · simp [tail, visualLine] at heq
      · refine absurd (start_of_append (c := '|')
          (t := n.name.toList ++ '|' :: (n.automation_id.toList ++ suffix n)) (by decide) ?_) hstart
        rw [htail, entry_toList n] at heq
        exact ⟨ref.content_hash.toList, (List.cons.inj heq).2⟩
    · rw [htail] at heq
      simp only [tail, List.flatMap_cons, List.flatMap_nil, List.append_nil,
        List.cons_append] at heq
      rw [List.map_singleton, List.map_singleton, eq_of_plain h (List.cons.inj heq).2]
    · simp only [List.length_cons] at hbars
      omega
  · exact h.elim

/-- The line of a node is that of a bare one, with the rest in its last name. -/
theorem tail_cons_eq_bare (n : SemanticNode) (nodes : List SemanticNode)
    (visual : Option VisualReference) :
    tail (n :: nodes) visual = tail [bare n.role.toList n.name.toList
      (n.automation_id.toList ++ suffix n ++ tail nodes visual)] none := by
  rw [tail_bare]
  simp [tail, entry_toList]

theorem key_bare (r n a : List Char) : (bare r n a).key = (.ofList r, .ofList n, .ofList a) := rfl

theorem plain_of_keys {nodes : List SemanticNode} {visual : Option VisualReference}
    (h : ∀ nodes' visual', tail nodes' visual' = tail nodes visual →
      nodes'.map SemanticNode.key = nodes.map SemanticNode.key) : Plain visual nodes := by
  cases nodes with
  | nil =>
      rintro ref rfl
      by_contra hmany
      have hmany : 2 ≤ ("vref:".toList ++ ref.content_hash.toList).count '|' := by
        rw [List.count_append]
        omega
      obtain ⟨r, n, a, hline⟩ := exists_bare hmany
      have hkeys := h [bare r n a] none (by rw [tail_bare, ← hline]; rfl)
      exact absurd hkeys (by simp)
  | cons n rest =>
      have hkeys := h _ none (tail_cons_eq_bare n rest visual).symm
      obtain ⟨hkey, hrest⟩ := List.cons.inj hkeys
      obtain rfl := List.map_eq_nil_iff.mp hrest.symm
      have haid : suffix n ++ visualLine visual = [] := by
        rw [key_bare] at hkey
        have hid := congrArg (fun k => k.2.2.toList) hkey
        simpa [SemanticNode.key, tail] using hid
      obtain ⟨hsuffix, hvisual⟩ := List.append_eq_nil_iff.mp haid
      have htail : tail [n] visual = '\n' :: (n.role.toList ++ '|' ::
          (n.name.toList ++ '|' :: n.automation_id.toList)) := by
        simp [tail, entry_toList, hsuffix, hvisual]
      -- each thing that is not plain can be read in another way
      have hread : ∀ m visual', (entry m).toList ++ visualLine visual' =
            n.role.toList ++ '|' :: (n.name.toList ++ '|' :: n.automation_id.toList) →
          m.key = n.key := by
        intro m visual' hsame
        refine (List.cons.inj (h [m] visual' ?_)).1
        rw [htail, ← hsame]
        simp [tail]
      have hbare : ∀ r m a : List Char,
          r ++ '|' :: (m ++ '|' :: a) =
            n.role.toList ++ '|' :: (n.name.toList ++ '|' :: n.automation_id.toList) →
          r = n.role.toList ∧ m = n.name.toList := by
        intro r m a hsame
        have hkey := hread (bare r m a) none (by rw [entry_bare, hsame, visualLine, List.append_nil])
        rw [key_bare] at hkey
        simp only [SemanticNode.key, Prod.mk.injEq] at hkey
        exact ⟨by rw [← hkey.1, String.toList_ofList], by rw [← hkey.2.1, String.toList_ofList]⟩
      have hcut : ∀ (m : SemanticNode) (a b : List Char) visual', b ≠ [] →
          n.automation_id.toList = a ++ b → m.key = (n.role, n.name, .ofList a) →
          suffix m ++ visualLine visual' = b → False := by
        intro m a b visual' hb haid hm hsuf
        obtain ⟨hmr, hmn, hma⟩ : m.role = n.role ∧ m.name = n.name ∧ m.automation_id = .ofList a := by
          simpa [SemanticNode.key] using hm
        have hkey := hread m visual' (by
          rw [entry_toList, hmr, hmn, hma, haid, ← hsuf]
          simp)
        have hsame := congrArg String.toList (congrArg (fun k => k.2.2) hkey)
        simp only [SemanticNode.key, hma, String.toList_ofList, haid] at hsame
        exact hb (List.append_right_eq_self.mp hsame.symm)
      have hvis : visual = none := by
        rcases visual with - | ref
        · rfl
        · simp [visualLine] at hvisual
      have hflat : n.path_index = [] ∧ n.visual_reference = none := by
        rcases href : n.visual_reference with - | ref
        · by_cases hpath : n.path_index = []
          · exact ⟨hpath, rfl⟩
          · simp [suffix, hpath] at hsuffix
        · simp [suffix, href] at hsuffix
      refine ⟨hvis, hflat.1, hflat.2, fun hin => ?_, fun hin => ?_, fun hin => ?_, ?_, fun hin => ?_,
        ?_, ?_⟩
      · obtain ⟨a, b, hr⟩ := List.append_of_mem hin
        have hsame := (hbare a b (n.name.toList ++ '|' :: n.automation_id.toList) (by simp [hr])).1
        simp [hr] at hsame
      · obtain ⟨a, b, hm⟩ := List.append_of_mem hin
        have hsame := (hbare n.role.toList a (b ++ '|' :: n.automation_id.toList) (by simp [hm])).2
        simp [hm] at hsame
      · obtain ⟨a, b, ha⟩ := List.append_of_mem hin
        have hsame := (hbare (n.role.toList ++ '|' :: n.name.toList) a b (by simp [ha])).1
        simp at hsame
      · rintro ⟨r, hr⟩
        let ref : VisualReference :=
          { content_hash := .ofList (r ++ '|' :: (n.name.toList ++ '|' :: n.automation_id.toList)) }
        have hnone := h [] (some ref) (by
          rw [htail, ← hr]
          simp [tail, visualLine, ref])
        simp at hnone
      · obtain ⟨a, b, ha⟩ := List.append_of_mem hin
        refine hcut { bare n.role.toList n.name.toList a with
          visual_reference := some { content_hash := .ofList b } } a ('#' :: b) none (by simp) ha ?_ ?_
        · simp [SemanticNode.key, bare]
        · simp [suffix, bare, visualLine]
      · rintro ⟨a, b, ha⟩
        refine hcut (bare n.role.toList n.name.toList a) a ("\nvref:".toList ++ b)
          (some { content_hash := .ofList b }) (by simp) (by rw [← ha, List.append_assoc]) ?_ ?_
        · simp [SemanticNode.key, bare]
        · simp [suffix, bare, visualLine]
      · rintro path hne ⟨a, ha⟩
        refine hcut { bare n.role.toList n.name.toList a with path_index := path } a _ none ?_
          ha.symm ?_ ?_
        · simp
        · simp [SemanticNode.key, bare]
        · simp [suffix, bare, visualLine, hne]

/-- The nodes can be read back from the text exactly where they are plain. -/
theorem plain_iff {nodes : List SemanticNode} {visual : Option VisualReference} :
    Plain visual nodes ↔ ∀ nodes' visual', tail nodes' visual' = tail nodes visual →
      nodes'.map SemanticNode.key = nodes.map SemanticNode.key :=
  ⟨fun h _ _ => keys_of_plain h, plain_of_keys⟩

end Secdogie.Agent.Fusion
