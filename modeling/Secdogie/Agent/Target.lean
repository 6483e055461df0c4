/-
# `Secdogie.Agent.Target` — finding an element again, at the generation it was seen in

A reference is resolved against a snapshot by its attributes, of which the
empty ones say nothing, and by a native token where a provider has one.  The
gate over the planned actions finds the same element by a key, that ignores
blanks and case in another way.

`resolve_valid` says what a resolved element is.  Case folding is a parameter,
of which the key needs that it folds letter by letter and leaves the blanks.
-/
import Secdogie.Agent.AxTree
import Secdogie.Agent.Action

namespace Secdogie.Agent

/-- What a target is named by; `bounds` if they are four numbers. -/
class Identifiable (α : Type) where
  role : α → String
  name : α → String
  automation_id : α → String
  bounds : α → Option Bounds

instance : Identifiable AxElement where
  role := AxElement.role
  name := AxElement.name
  automation_id := AxElement.automation_id
  bounds := fun el => some el.bounds

namespace Target

inductive Verdict where
  | valid | stale | ambiguous | gone | moved
deriving DecidableEq

def Verdict.value : Verdict → String
  | .valid => "valid"
  | .stale => "stale"
  | .ambiguous => "ambiguous"
  | .gone => "gone"
  | .moved => "moved"

def gen_gate (observed_generation current_generation : ℤ) : Option Verdict :=
  if observed_generation ≠ current_generation then some .stale else none

open Identifiable (role name automation_id bounds)

variable {α : Type} [Identifiable α] (casefold : String → String)

def _matches (el : α) (aid name' role' : String) : Bool :=
  if aid ≠ "" ∧ casefold (automation_id el) ≠ casefold aid then false
  else if name' ≠ "" ∧ casefold (name el) ≠ casefold name' then false
  else if role' ≠ "" ∧ casefold (role el) ≠ casefold role' then false
  else true

/-- The loop over the snapshot. -/
def uniqueIn (aid name' role' : String) : Option α → List α → Verdict × Option α
  | none, [] => (.gone, none)
  | some found, [] => (.valid, some found)
  | found, el :: snapshot =>
      if _matches casefold el aid name' role' = false then uniqueIn aid name' role' found snapshot
      else if found.isSome then (.ambiguous, none)
      else uniqueIn aid name' role' (some el) snapshot

def unique_identity_match (snapshot : List α) (aid name' role' : String) : Verdict × Option α :=
  if aid = "" ∧ name' = "" ∧ role' = "" then (.gone, none)
  else uniqueIn casefold aid name' role' none snapshot

/-- `s.strip()` -/
def strip (s : String) : String :=
  String.ofList
    (((s.toList.dropWhile (isSpace ·.toNat)).reverse.dropWhile (isSpace ·.toNat)).reverse)

def identity_key (el : α) : String :=
  let aid := strip (automation_id el)
  if aid ≠ "" then "id=" ++ casefold aid
  else
    let role' := casefold (strip (role el))
    let name' := casefold (strip (name el))
    if role' ≠ "" ∨ name' ≠ "" then role' ++ ":" ++ name' else ""

/-- A set, in the order of the snapshot. -/
def present_keys (snapshot : List α) : List String :=
  (snapshot.map (identity_key casefold)).filter (· ≠ "")

def _center (b : Bounds) : ℤ × ℤ := ((b.left + b.right).fdiv 2, (b.top + b.bottom).fdiv 2)

structure AXTargetRef where
  window_id : ℤ
  app_pid : ℤ
  generation : ℤ
  role : String := ""
  name : String := ""
  automation_id : String := ""
  native_identity : String := ""
  bounds : Bounds := ⟨0, 0, 0, 0⟩

instance : Identifiable AXTargetRef where
  role := AXTargetRef.role
  name := AXTargetRef.name
  automation_id := AXTargetRef.automation_id
  bounds := fun ref => some ref.bounds

namespace AXTargetRef

def center (ref : AXTargetRef) : ℤ × ℤ := _center ref.bounds

def key (ref : AXTargetRef) : String := identity_key casefold ref

def from_element (el : α) (window_id app_pid generation : ℤ) (native_identity : String) :
    AXTargetRef where
  window_id := window_id
  app_pid := app_pid
  generation := generation
  role := Identifiable.role el
  name := Identifiable.name el
  automation_id := Identifiable.automation_id el
  native_identity := native_identity
  bounds := (Identifiable.bounds el).getD ⟨0, 0, 0, 0⟩

end AXTargetRef

structure TargetResolution (α : Type) where
  verdict : Verdict
  reason : String := ""
  /-- the element it was resolved to -/
  element : Option α := none
deriving DecidableEq

/-- What the re-find comes to: an element, or the answer without one. -/
def refind (ref : AXTargetRef) (snapshot : List α) (identity_of : Option (α → String)) :
    TargetResolution α ⊕ α :=
  match unique_identity_match casefold snapshot ref.automation_id ref.name ref.role with
  | (.valid, some el) => .inr el
  | (verdict, _) =>
      match identity_of with
      | none => .inl ⟨verdict, "identity re-find -> " ++ verdict.value, none⟩
      | some identity =>
          if verdict = .ambiguous ∧ ref.native_identity ≠ "" then
            match snapshot.filter (identity · = ref.native_identity) with
            | [el] => .inr el
            | _ => .inl ⟨.ambiguous, "native identity did not uniquely match", none⟩
          else .inl ⟨verdict, "identity re-find -> " ++ verdict.value, none⟩

/-- Whether the centre of the element is beyond the tolerance, where both have bounds. -/
def shifted (ref : AXTargetRef) (el : α) (move_tolerance_px : ℤ) : Bool :=
  if ref.bounds = ⟨0, 0, 0, 0⟩ then false
  else
    match Identifiable.bounds el with
    | none => false
    | some el_bounds =>
        decide (move_tolerance_px < |ref.center.1 - (_center el_bounds).1| ∨
          move_tolerance_px < |ref.center.2 - (_center el_bounds).2|)

def resolve (ref : AXTargetRef) (snapshot : List α) (current_generation : ℤ)
    (identity_of : Option (α → String)) (move_tolerance_px : ℤ) : TargetResolution α :=
  match gen_gate ref.generation current_generation with
  | some _ =>
      ⟨.stale, "generation " ++ toString ref.generation ++ " != current " ++
        toString current_generation, none⟩
  | none =>
      match refind casefold ref snapshot identity_of with
      | .inl answer => answer
      | .inr el =>
          if identity_of.any (fun identity =>
              decide (ref.native_identity ≠ "" ∧ identity el ≠ ref.native_identity)) then
            ⟨.gone, "native identity of the matched element differs", none⟩
          else if shifted ref el move_tolerance_px then
            ⟨.moved, "matched identity but bounds moved", some el⟩
          else ⟨.valid, "", some el⟩

/-! ## The element that is found -/

/-- What a filter leaves alone stands at one place, and nothing else passes the filter. -/
theorem exists_index_of_filter {β : Type*} {p : β → Bool} {el : β} : ∀ {l : List β},
    l.filter p = [el] →
    p el = true ∧ ∃ i : ℕ, l[i]? = some el ∧ ∀ (j : ℕ) f, l[j]? = some f → p f = true → j = i
  | [], h => nomatch h
  | a :: l, h => by
      by_cases ha : p a = true
      · rw [List.filter_cons_of_pos ha] at h
        obtain ⟨rfl, hrest⟩ := List.cons.inj h
        refine ⟨ha, 0, rfl, fun j f hj hf => ?_⟩
        cases j with
        | zero => rfl
        | succ j =>
            have hmem : f ∈ l.filter p := List.mem_filter.mpr ⟨List.mem_of_getElem? hj, hf⟩
            rw [hrest] at hmem
            exact nomatch hmem
      · rw [List.filter_cons_of_neg ha] at h
        obtain ⟨hel, i, hi, honly⟩ := exists_index_of_filter h
        refine ⟨hel, i + 1, hi, fun j f hj hf => ?_⟩
        cases j with
        | zero =>
            cases hj
            exact absurd hf ha
        | succ j => exact congrArg _ (honly j f hj hf)

/-- The loop goes by the elements that match. -/
theorem uniqueIn_eq (aid name' role' : String) (found : Option α) (snapshot : List α) :
    uniqueIn casefold aid name' role' found snapshot =
      match found.toList ++ snapshot.filter (_matches casefold · aid name' role') with
      | [] => (.gone, none)
      | [el] => (.valid, some el)
      | _ :: _ :: _ => (.ambiguous, none) := by
  induction snapshot generalizing found with
  | nil => cases found <;> rfl
  | cons el snapshot ih =>
      rw [uniqueIn]
      by_cases hel : _matches casefold el aid name' role' = false
      · rw [if_pos hel, ih, List.filter_cons_of_neg (by rw [hel]; exact Bool.false_ne_true)]
      · have hpos : _matches casefold el aid name' role' = true := Bool.eq_true_of_not_eq_false hel
        have hfilter : (el :: snapshot).filter (_matches casefold · aid name' role') =
            el :: snapshot.filter (_matches casefold · aid name' role') :=
          List.filter_cons_of_pos hpos
        rw [if_neg hel, hfilter]
        cases found with
        | none =>
            rw [if_neg (by exact Bool.false_ne_true), ih]
            rfl
        | some found => rfl

variable {casefold} {ref : AXTargetRef} {snapshot : List α} {el : α}

/-- The element matches what the reference says. -/
def Matches (casefold : String → String) (ref : AXTargetRef) (el : α) : Prop :=
  (ref.automation_id ≠ "" → casefold (automation_id el) = casefold ref.automation_id) ∧
  (ref.name ≠ "" → casefold (name el) = casefold ref.name) ∧
  (ref.role ≠ "" → casefold (role el) = casefold ref.role)

theorem _matches_iff :
    _matches casefold el ref.automation_id ref.name ref.role = true ↔ Matches casefold ref el := by
  rw [_matches, Matches]
  split_ifs with haid hname hrole
  · exact ⟨nofun, fun h => absurd (h.1 haid.1) haid.2⟩
  · exact ⟨nofun, fun h => absurd (h.2.1 hname.1) hname.2⟩
  · exact ⟨nofun, fun h => absurd (h.2.2 hrole.1) hrole.2⟩
  · refine ⟨fun _ => ⟨fun h => ?_, fun h => ?_, fun h => ?_⟩, fun _ => rfl⟩
    · by_contra hne
      exact haid ⟨h, hne⟩
    · by_contra hne
      exact hname ⟨h, hne⟩
    · by_contra hne
      exact hrole ⟨h, hne⟩

instance : Decidable (Matches casefold ref el) := decidable_of_iff _ _matches_iff

/-- The token agrees where both are supplied. -/
def Carries (identity_of : Option (α → String)) (ref : AXTargetRef) (el : α) : Prop :=
  ∀ identity, identity_of = some identity → ref.native_identity ≠ "" →
    identity el = ref.native_identity

/-- The candidate of the re-find: the only match, or the only bearer of the token where several
match. -/
theorem refind_inr {identity_of : Option (α → String)}
    (h : refind casefold ref snapshot identity_of = .inr el) :
    snapshot.filter (_matches casefold · ref.automation_id ref.name ref.role) = [el] ∨
    2 ≤ (snapshot.filter (_matches casefold · ref.automation_id ref.name ref.role)).length ∧
      ref.native_identity ≠ "" ∧
      ∃ identity, identity_of = some identity ∧
        snapshot.filter (identity · = ref.native_identity) = [el] := by
  rw [refind, unique_identity_match] at h
  split_ifs at h with hempty
  · cases identity_of with
    | none => exact nomatch h
    | some identity =>
        dsimp only at h
        rw [if_neg (fun hand => nomatch hand.1)] at h
        exact nomatch h
  · rw [uniqueIn_eq, Option.toList_none, List.nil_append] at h
    cases hmatching : snapshot.filter (_matches casefold · ref.automation_id ref.name ref.role) with
    | nil =>
        rw [hmatching] at h
        cases identity_of with
        | none => exact nomatch h
        | some identity =>
            dsimp only at h
            rw [if_neg (fun hand => nomatch hand.1)] at h
            exact nomatch h
    | cons first rest =>
        rw [hmatching] at h
        cases rest with
        | nil =>
            cases h
            exact .inl rfl
        | cons second rest =>
            refine .inr ⟨by simp, ?_⟩
            cases identity_of with
            | none => exact nomatch h
            | some identity =>
                dsimp only at h
                by_cases hnative : ref.native_identity ≠ ""
                · rw [if_pos ⟨rfl, hnative⟩] at h
                  refine ⟨hnative, identity, rfl, ?_⟩
                  split at h
                  · next el' heq =>
                      cases h
                      exact heq
                  · exact nomatch h
                · rw [if_neg (fun hand => hnative hand.2)] at h
                  exact nomatch h

/-- No answer without an element is valid. -/
theorem refind_not_valid {identity_of : Option (α → String)} {reason : String} :
    refind casefold ref snapshot identity_of ≠ .inl ⟨.valid, reason, some el⟩ := by
  rw [refind]
  intro h
  split at h
  · exact nomatch h
  · split at h
    · exact nomatch h
    · split_ifs at h
      · split at h <;> exact nomatch h
      · exact nomatch h

/-! ## The key, and what it ignores -/

/-- Case folding goes letter by letter, leaves the blanks and makes none. -/
structure FoldsLetters (casefold : String → String) (fold : Char → List Char) : Prop where
  charwise : ∀ s, casefold s = String.ofList (s.toList.flatMap fold)
  blank : ∀ c, isSpace c.toNat = true → fold c = [c]
  letter : ∀ c, isSpace c.toNat = false → fold c ≠ [] ∧ ∀ d ∈ fold c, isSpace d.toNat = false

theorem dropWhile_flatMap {β : Type*} {p : β → Bool} {f : β → List β}
    (hpos : ∀ c, p c = true → f c = [c])
    (hneg : ∀ c, p c = false → f c ≠ [] ∧ ∀ d ∈ f c, p d = false) (l : List β) :
    (l.flatMap f).dropWhile p = (l.dropWhile p).flatMap f := by
  induction l with
  | nil => rfl
  | cons c l ih =>
      rw [List.flatMap_cons]
      cases hc : p c with
      | true =>
          rw [hpos c hc, List.dropWhile_cons_of_pos hc]
          exact (List.dropWhile_cons_of_pos hc).trans ih
      | false =>
          obtain ⟨hne, hall⟩ := hneg c hc
          rw [List.dropWhile_cons_of_neg (by rw [hc]; exact Bool.false_ne_true), List.flatMap_cons]
          cases hf : f c with
          | nil => exact absurd hf hne
          | cons d rest =>
              have hd : p d = false := hall d (hf ▸ List.mem_cons_self)
              exact List.dropWhile_cons_of_neg (by rw [hd]; exact Bool.false_ne_true)

section

variable {fold : Char → List Char} (hfold : FoldsLetters casefold fold)

include hfold

theorem FoldsLetters.strip (s : String) :
    Target.strip (casefold s) = casefold (Target.strip s) := by
  have hpos : ∀ c : Char, isSpace c.toNat = true → (fold c).reverse = [c] := by
    intro c hc
    rw [hfold.blank c hc]
    rfl
  have hneg : ∀ c : Char, isSpace c.toNat = false →
      (fold c).reverse ≠ [] ∧ ∀ d ∈ (fold c).reverse, isSpace d.toNat = false := by
    intro c hc
    obtain ⟨hne, hall⟩ := hfold.letter c hc
    exact ⟨fun hnil => hne (List.reverse_eq_nil_iff.mp hnil),
      fun d hd => hall d (List.mem_reverse.mp hd)⟩
  rw [Target.strip, Target.strip, hfold.charwise, hfold.charwise, String.toList_ofList,
    String.toList_ofList, dropWhile_flatMap hfold.blank hfold.letter, List.reverse_flatMap]
  congr 1
  rw [List.reverse_eq_iff, List.reverse_flatMap, List.reverse_reverse]
  exact dropWhile_flatMap hpos hneg _

theorem FoldsLetters.eq_empty {s : String} : casefold s = "" ↔ s = "" := by
  rw [hfold.charwise]
  constructor
  · intro h
    have hnil : s.toList.flatMap fold = [] := by
      rw [← String.toList_ofList (l := s.toList.flatMap fold), h]
      rfl
    cases hs : s.toList with
    | nil => exact String.toList_injective hs
    | cons c rest =>
        rw [hs, List.flatMap_cons, List.append_eq_nil_iff] at hnil
        cases hc : isSpace c.toNat with
        | true =>
            rw [hfold.blank c hc] at hnil
            exact nomatch hnil.1
        | false => exact absurd hnil.1 (hfold.letter c hc).1
  · rintro rfl
    rfl

/-- What matches, matches without the blanks around it. -/
theorem FoldsLetters.strip_congr {s t : String} (h : casefold s = casefold t) :
    casefold (Target.strip s) = casefold (Target.strip t) := by
  rw [← hfold.strip, ← hfold.strip, h]

/-- By the automation id. -/
theorem key_of_id (hmatches : Matches casefold ref el) (hid : strip ref.automation_id ≠ "") :
    identity_key casefold el = ref.key casefold := by
  have hne : ref.automation_id ≠ "" := by
    intro hempty
    rw [hempty] at hid
    exact hid rfl
  have hfolded := hfold.strip_congr (hmatches.1 hne)
  have hel : strip (automation_id el) ≠ "" := by
    intro hempty
    rw [hempty, hfold.eq_empty.mpr rfl] at hfolded
    exact hid (hfold.eq_empty.mp hfolded.symm)
  have hkey : ref.key casefold = "id=" ++ casefold (strip ref.automation_id) := if_pos hid
  rw [hkey, ← hfolded]
  exact if_pos hel

/-- By the role and the name. -/
theorem key_of_name (hmatches : Matches casefold ref el) (hid : strip ref.automation_id = "")
    (haid : ref.automation_id = "" → strip (automation_id el) = "")
    (hname : ref.name = "" → strip (name el) = "")
    (hrole : ref.role = "" → strip (role el) = "") :
    identity_key casefold el = ref.key casefold := by
  have hel : strip (automation_id el) = "" := by
    by_cases hempty : ref.automation_id = ""
    · exact haid hempty
    · have hfolded := hfold.strip_congr (hmatches.1 hempty)
      rw [hid] at hfolded
      exact hfold.eq_empty.mp (hfolded.trans (hfold.eq_empty.mpr rfl))
  have hnames : casefold (strip (name el)) = casefold (strip ref.name) := by
    by_cases hempty : ref.name = ""
    · rw [hname hempty, hempty]
      rfl
    · exact hfold.strip_congr (hmatches.2.1 hempty)
  have hroles : casefold (strip (role el)) = casefold (strip ref.role) := by
    by_cases hempty : ref.role = ""
    · rw [hrole hempty, hempty]
      rfl
    · exact hfold.strip_congr (hmatches.2.2 hempty)
  have hkey : ref.key casefold =
      if casefold (strip ref.role) ≠ "" ∨ casefold (strip ref.name) ≠ "" then
        casefold (strip ref.role) ++ ":" ++ casefold (strip ref.name) else "" :=
    if_neg (not_not_intro hid)
  rw [hkey, ← hroles, ← hnames]
  exact if_neg (not_not_intro hel)

end

/-! ## What resolves -/

/-- What is said of the element that a reference resolves to. -/
structure Resolved (casefold : String → String) (ref : AXTargetRef) (snapshot : List α)
    (current_generation : ℤ) (identity_of : Option (α → String)) (move_tolerance_px : ℤ) (el : α) :
    Prop where
  generation : ref.generation = current_generation
  /-- unless several match and a token decides between them -/
  matching : identity_of = none ∨ ref.native_identity = "" ∨
    snapshot.countP (_matches casefold · ref.automation_id ref.name ref.role) ≤ 1 →
    Matches casefold ref el
  carries : Carries identity_of ref el
  only : ∃ i : ℕ, snapshot[i]? = some el ∧ ∀ (j : ℕ) f, snapshot[j]? = some f →
    Matches casefold ref f → Carries identity_of ref f → j = i
  centre : ref.bounds ≠ ⟨0, 0, 0, 0⟩ → ∀ b, Identifiable.bounds el = some b →
    |ref.center.1 - (_center b).1| ≤ move_tolerance_px ∧
    |ref.center.2 - (_center b).2| ≤ move_tolerance_px
  seen_by_id : strip ref.automation_id ≠ "" → ref.key casefold ∈ present_keys casefold snapshot
  seen_by_name : ref.key casefold ≠ "" → Matches casefold ref el →
    (ref.automation_id = "" → strip (automation_id el) = "") →
    (ref.name = "" → strip (name el) = "") → (ref.role = "" → strip (role el) = "") →
    ref.key casefold ∈ present_keys casefold snapshot

theorem mem_present_keys {key : String} (hmem : el ∈ snapshot) (hkey : identity_key casefold el = key)
    (hne : key ≠ "") : key ∈ present_keys casefold snapshot :=
  List.mem_filter.mpr ⟨List.mem_map.mpr ⟨el, hmem, hkey⟩, decide_eq_true hne⟩

/-- The steps that lead to a resolution. -/
theorem resolve_eq_valid {current_generation : ℤ} {identity_of : Option (α → String)}
    {move_tolerance_px : ℤ} {reason : String}
    (h : resolve casefold ref snapshot current_generation identity_of move_tolerance_px =
      ⟨.valid, reason, some el⟩) :
    ref.generation = current_generation ∧ refind casefold ref snapshot identity_of = .inr el ∧
      Carries identity_of ref el ∧ shifted ref el move_tolerance_px = false := by
  rw [resolve, gen_gate] at h
  by_cases hgeneration : ref.generation = current_generation
  · rw [if_neg (not_not_intro hgeneration)] at h
    dsimp only at h
    cases hrefind : refind casefold ref snapshot identity_of with
    | inl answer =>
        rw [hrefind] at h
        dsimp only at h
        rw [h] at hrefind
        exact absurd hrefind refind_not_valid
    | inr found =>
        rw [hrefind] at h
        dsimp only at h
        split_ifs at h with hany hshifted
        · exact nomatch (TargetResolution.mk.inj h).1
        · exact nomatch (TargetResolution.mk.inj h).1
        · obtain ⟨-, -, heq⟩ := TargetResolution.mk.inj h
          cases heq
          refine ⟨hgeneration, rfl, ?_, Bool.eq_false_of_not_eq_true hshifted⟩
          intro identity hsome hnative
          by_contra hne
          refine hany ?_
          rw [hsome]
          exact decide_eq_true ⟨hnative, hne⟩
  · rw [if_pos hgeneration] at h
    exact nomatch (TargetResolution.mk.inj h).1

theorem not_shifted {move_tolerance_px : ℤ} (h : shifted ref el move_tolerance_px = false)
    (hbounds : ref.bounds ≠ ⟨0, 0, 0, 0⟩) {b : Bounds} (hb : Identifiable.bounds el = some b) :
    |ref.center.1 - (_center b).1| ≤ move_tolerance_px ∧
    |ref.center.2 - (_center b).2| ≤ move_tolerance_px := by
  rw [shifted, if_neg hbounds, hb] at h
  have hor := of_decide_eq_false h
  rw [not_or, not_lt, not_lt] at hor
  exact hor

/-- **A target is resolved to no lookalike**: the element has the generation, the attributes and
the token of the reference, no other has them, and its centre is where it was. -/
theorem resolve_valid (casefold : String → String) (fold : Char → List Char)
    (hfold : FoldsLetters casefold fold) (ref : AXTargetRef) (snapshot : List α)
    (current_generation : ℤ) (identity_of : Option (α → String)) (move_tolerance_px : ℤ)
    (reason : String) (el : α)
    (h : resolve casefold ref snapshot current_generation identity_of move_tolerance_px =
      ⟨.valid, reason, some el⟩) :
    Resolved casefold ref snapshot current_generation identity_of move_tolerance_px el := by
  obtain ⟨hgeneration, hrefind, hcarries, hshifted⟩ := resolve_eq_valid h
  have hlookalike : ∃ i : ℕ, snapshot[i]? = some el ∧ ∀ (j : ℕ) f, snapshot[j]? = some f →
      Matches casefold ref f → Carries identity_of ref f → j = i := by
    rcases refind_inr hrefind with hfilter | ⟨-, hnative, identity, hsome, hfilter⟩
    · obtain ⟨-, i, hi, honly⟩ := exists_index_of_filter hfilter
      exact ⟨i, hi, fun j f hj hmatches _ => honly j f hj (_matches_iff.mpr hmatches)⟩
    · obtain ⟨-, i, hi, honly⟩ := exists_index_of_filter hfilter
      exact ⟨i, hi, fun j f hj _ hf => honly j f hj (decide_eq_true (hf identity hsome hnative))⟩
  obtain ⟨i, hi, honly⟩ := hlookalike
  have hmem : el ∈ snapshot := List.mem_of_getElem? hi
  refine ⟨hgeneration, fun hone => ?_, hcarries, ⟨i, hi, honly⟩, fun hbounds b hb =>
    not_shifted hshifted hbounds hb, fun hid => ?_, fun hkey hmatches haid hname hrole => ?_⟩
  · rcases refind_inr hrefind with hfilter | ⟨htwo, hnative, identity, hsome, -⟩
    · exact _matches_iff.mp (exists_index_of_filter hfilter).1
    · rcases hone with hnone | hempty | hcount
      · rw [hsome] at hnone
        exact nomatch hnone
      · exact absurd hempty hnative
      · rw [List.countP_eq_length_filter] at hcount
        omega
  · -- some element matches, this or another
    obtain ⟨f, hf⟩ : ∃ f, f ∈ snapshot.filter
        (_matches casefold · ref.automation_id ref.name ref.role) := by
      rcases refind_inr hrefind with hfilter | ⟨htwo, -⟩
      · exact ⟨el, hfilter ▸ List.mem_cons_self⟩
      · exact List.exists_mem_of_length_pos (by omega)
    obtain ⟨hfmem, hmatches⟩ := List.mem_filter.mp hf
    have hkey : ref.key casefold = "id=" ++ casefold (strip ref.automation_id) := if_pos hid
    refine mem_present_keys hfmem (key_of_id hfold (_matches_iff.mp hmatches) hid) ?_
    rw [hkey]
    intro hempty
    have hlist := congrArg String.toList hempty
    rw [String.toList_append] at hlist
    exact nomatch hlist
  · by_cases hid : strip ref.automation_id = ""
    · exact mem_present_keys hmem (key_of_name hfold hmatches hid haid hname hrole) hkey
    · exact mem_present_keys hmem (key_of_id hfold hmatches hid) hkey

namespace Sample

/-- `str.casefold` of an ASCII string. -/
def lowered (s : String) : String := String.ofList (s.toList.flatMap fun c => [c.toLower])

theorem isSpace_letter {n : ℕ} (hle : 65 ≤ n) (hge : n ≤ 122) : isSpace n = false := by
  rw [isSpace, decide_eq_false_iff_not]
  simp only [List.mem_cons, List.not_mem_nil, or_false]
  omega

theorem toLower_cases (c : Char) :
    ((65 ≤ c.toNat ∧ c.toNat ≤ 90) ∧ c.toLower.toNat = c.toNat + 32) ∨ c.toLower = c := by
  rw [Char.toLower]
  by_cases hupper : c.val ≥ 'A'.val ∧ c.val ≤ 'Z'.val
  · refine .inl ⟨⟨UInt32.le_iff_toNat_le.mp hupper.1, UInt32.le_iff_toNat_le.mp hupper.2⟩, ?_⟩
    rw [dif_pos hupper]
    have hle : c.val.toNat ≤ 90 := UInt32.le_iff_toNat_le.mp hupper.2
    exact Nat.mod_eq_of_lt (by change c.val.toNat + 32 < _; omega)
  · exact .inr (dif_neg hupper)

theorem folds_letters : FoldsLetters lowered fun c => [c.toLower] where
  charwise := fun _ => rfl
  blank := by
    intro c hc
    rcases toLower_cases c with ⟨hupper, -⟩ | heq
    · exact nomatch (isSpace_letter hupper.1 (hupper.2.trans (by decide))).symm.trans hc
    · rw [heq]
  letter := by
    intro c hc
    refine ⟨List.cons_ne_nil _ _, fun d hd => ?_⟩
    rw [List.mem_singleton.mp hd]
    rcases toLower_cases c with ⟨hupper, heq⟩ | heq
    · rw [heq]
      exact isSpace_letter (by omega) (by omega)
    · rw [heq]
      exact hc

def save : AxElement := ⟨"Button", "Save", "save", ⟨0, 0, 0, 0⟩, -1, "", "", none⟩

def saveAt (left : ℤ) : AxElement := { save with bounds := ⟨left, 40, left + 40, 60⟩ }

def seen (el : AxElement) : AXTargetRef := .from_element el 1 9 4 ""

end Sample

theorem resolve_valid_save :
    Resolved Sample.lowered (Sample.seen (Sample.saveAt 40)) [Sample.saveAt 42] 4 none 4
      (Sample.saveAt 42) :=
  resolve_valid Sample.lowered _ Sample.folds_letters (Sample.seen (Sample.saveAt 40))
    [Sample.saveAt 42] 4 none 4 "" (Sample.saveAt 42) (by decide)

/-- A reference to an element without bounds is resolved wherever its match is. -/
theorem resolved_far_away :
    resolve Sample.lowered (Sample.seen Sample.save) [Sample.saveAt 400] 4 none 4 =
        ⟨.valid, "", some (Sample.saveAt 400)⟩ ∧
      ¬ |(Sample.seen Sample.save).center.1 - (_center (Sample.saveAt 400).bounds).1| ≤ 4 := by
  decide

end Target

end Secdogie.Agent
