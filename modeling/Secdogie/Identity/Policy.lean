/-
# `Secdogie.Identity.Policy` — an allowlist minus the revoked

A trust policy answers `contains` as "on the allowlist and not revoked".  The
records it has accepted are kept in a store, one JSON object on a line, so
that a restart does not forget who was revoked.

The store is a file that only grows, and every append writes one more line.
What a crash may leave of a line is still there at the next append, which
continues it: `durable_iff` says when the records survive that.
-/
import Secdogie.Lib.StrMap
import Secdogie.Lib.TextFile
import Secdogie.Identity.Revocation

namespace Secdogie.Identity

open Secdogie.Graph

/-! ## The store -/

/-- What `json.loads` makes of a text. -/
inductive Loaded (F : Type) where
  /-- it raises `JSONDecodeError` -/
  | garbled
  /-- it raises something else: the nesting, or an integer, is beyond its limits -/
  | raises
  | value (v : Value F)

/-- Where `str.splitlines` breaks: the line and page breaks of ASCII, the
separators 28 to 30, and U+0085, U+2028, U+2029. -/
def isBreak (c : Char) : Bool :=
  decide (c.toNat ∈ [10, 11, 12, 13, 28, 29, 30, 0x85, 0x2028, 0x2029])

/-- `str.isspace` of one character. -/
def isSpace (c : Char) : Bool :=
  decide (9 ≤ c.toNat ∧ c.toNat ≤ 13 ∨ 28 ≤ c.toNat ∧ c.toNat ≤ 32 ∨
    0x2000 ≤ c.toNat ∧ c.toNat ≤ 0x200a ∨
    c.toNat ∈ [0x85, 0xa0, 0x1680, 0x2028, 0x2029, 0x202f, 0x205f, 0x3000])

/-- `str.strip` -/
def strip (line : List Char) : List Char :=
  ((line.dropWhile isSpace).reverse.dropWhile isSpace).reverse

section

variable {F : Type} (loads : String → Loaded F)

/-- The record on a line, if there is one; `none` when reading it raises. -/
def readLine (line : List Char) : Option (Option (Value F)) :=
  if strip line = [] then some none
  else
    match loads (String.ofList (strip line)) with
    | .garbled => some none
    | .raises => none
    | .value (.obj m) => some (some (.obj m))
    | .value _ => some none

def readLines : List (List Char) → Option (List (Value F))
  | [] => some []
  | line :: rest =>
      match readLine loads line with
      | none => none
      | some r => (readLines rest).map (r.toList ++ ·)

/-- The records in the store; `none` when loading raises.  The lines are those
of `splitlines` up to empty ones, which are skipped. -/
def load (file : Option ByteArray) : Option (List (Value F)) :=
  match file with
  | none => some []
  | some bytes =>
      match String.fromUTF8? bytes with
      | none => none
      | some text => readLines loads (text.toList.splitOnP isBreak)

variable [FloatCodec F]

/-- The line of a record. -/
def storeLine (obj : Value F) : String := toStr obj

def append (file : Option ByteArray) (obj : Value F) : Option ByteArray :=
  some (file.getD .empty ++ (storeLine obj ++ "\n").toUTF8)

/-! ## What survives an append -/

/-- A later `load` returns the record and whatever it returned before, and
does not raise. -/
def Durable (file : Option ByteArray) (obj : Value F) : Prop :=
  ∃ l, load loads (append file obj) = some l ∧ obj ∈ l ∧
    ∀ l₀, load loads file = some l₀ → ∀ x ∈ l₀, x ∈ l

/-- The lines that the last line of the file becomes. -/
def continued (text : List Char) (obj : Value F) : List (List Char) :=
  (openLine isBreak text ++ (storeLine obj).toList).splitOnP isBreak

/-- No line makes the reader raise; the record is read, from the last line of
the file as the append continues it or from an earlier one; and so is a record
that the last line was before. -/
structure Framed (text : List Char) (obj : Value F) : Prop where
  readable : ∀ line ∈ closedLines isBreak text ++ continued text obj, readLine loads line ≠ none
  there : ∃ line ∈ closedLines isBreak text ++ continued text obj,
    readLine loads line = some (some obj)
  kept : ∀ x, readLine loads (openLine isBreak text) = some (some x) →
    ∃ line ∈ closedLines isBreak text ++ continued text obj, readLine loads line = some (some x)

end

section

variable {F : Type} {loads : String → Loaded F}

theorem readLines_iff {lines : List (List Char)} {l : List (Value F)}
    (h : readLines loads lines = some l) :
    (∀ line ∈ lines, readLine loads line ≠ none) ∧
      ∀ x, x ∈ l ↔ ∃ line ∈ lines, readLine loads line = some (some x) := by
  induction lines generalizing l with
  | nil =>
      obtain rfl := Option.some.inj h
      exact ⟨by simp, by simp⟩
  | cons line rest ih =>
      rw [readLines] at h
      cases hline : readLine loads line with
      | none => rw [hline] at h; cases h
      | some r =>
          rw [hline] at h
          obtain ⟨l', hl', rfl⟩ := Option.map_eq_some_iff.mp h
          obtain ⟨hread, hmem⟩ := ih hl'
          refine ⟨fun line' hline' => ?_, fun x => ?_⟩
          · rcases List.mem_cons.mp hline' with rfl | hline'
            · rw [hline]; simp
            · exact hread line' hline'
          · rw [List.mem_append, Option.mem_toList, hmem, List.exists_mem_cons_iff, hline]
            simp [eq_comm]

theorem readLines_some {lines : List (List Char)}
    (h : ∀ line ∈ lines, readLine loads line ≠ none) : ∃ l, readLines loads lines = some l := by
  induction lines with
  | nil => exact ⟨[], rfl⟩
  | cons line rest ih =>
      obtain ⟨l, hl⟩ := ih fun line' hline' => h line' (List.mem_cons_of_mem _ hline')
      cases hline : readLine loads line with
      | none => exact absurd hline (h line List.mem_cons_self)
      | some r => exact ⟨r.toList ++ l, by rw [readLines, hline, hl]; rfl⟩

theorem readLine_nil : readLine loads [] = some none := rfl

theorem load_eq {file : Option ByteArray} {text : String}
    (h : String.fromUTF8? (file.getD .empty) = some text) :
    load loads file = readLines loads (text.toList.splitOnP isBreak) := by
  cases file with
  | none =>
      have htext : text = "" := Option.some.inj (h.symm.trans (fromUTF8?_toUTF8 ""))
      rw [htext]
      rfl
  | some bytes =>
      rw [load]
      have h : String.fromUTF8? bytes = some text := h
      rw [h]

theorem load_some {file : Option ByteArray} {l : List (Value F)} (h : load loads file = some l) :
    ∃ text, String.fromUTF8? (file.getD .empty) = some text := by
  cases file with
  | none => exact ⟨_, dif_pos ByteArray.isValidUTF8_empty⟩
  | some bytes =>
      rw [load] at h
      cases hbytes : String.fromUTF8? bytes with
      | none => rw [hbytes] at h; cases h
      | some text => exact ⟨text, hbytes⟩

variable [FloatCodec F]

/-- What the file holds, line by line, after an append. -/
theorem load_append {file : Option ByteArray} {text : String} (obj : Value F)
    (h : String.fromUTF8? (file.getD .empty) = some text) :
    load loads (append file obj) =
      readLines loads (closedLines isBreak text.toList ++ continued text.toList obj ++ [[]]) := by
  have htext : String.fromUTF8? ((append file obj).getD .empty) =
      some (text ++ (storeLine obj ++ "\n")) := by
    rw [append, Option.getD_some, fromUTF8?_append, h]
    rfl
  rw [load_eq htext, String.toList_append, String.toList_append, ← List.append_assoc]
  have hbreak : isBreak '\n' = true := by decide
  rw [show ("\n" : String).toList = ['\n'] from rfl, splitOnP_concat_break _ hbreak,
    splitOnP_append, continued]

/-- The main case: nothing but blanks after the last break, and a record whose
text has no break in it and reads back. -/
theorem framed_of_blank {text : List Char} {m : List (String × Value F)}
    (hclosed : ∀ line ∈ closedLines isBreak text, readLine loads line ≠ none)
    (hblank : strip (openLine isBreak text) = [])
    (hline : ∀ c ∈ openLine isBreak text ++ (storeLine (.obj m)).toList, isBreak c = false)
    (hread : readLine loads (openLine isBreak text ++ (storeLine (.obj m)).toList) =
      some (some (.obj m))) : Framed loads text (.obj m) := by
  have hcontinued : continued text (.obj m) =
      [openLine isBreak text ++ (storeLine (.obj m)).toList] := splitOnP_of_forall _ hline
  refine ⟨fun line hmem => ?_, ⟨_, by rw [hcontinued]; simp, hread⟩, fun x hx => ?_⟩
  · rw [hcontinued, List.mem_append, List.mem_singleton] at hmem
    rcases hmem with hmem | rfl
    · exact hclosed line hmem
    · rw [hread]; simp
  · rw [readLine, if_pos hblank] at hx
    cases hx

end

/-! ## A torn line -/

namespace Torn

/-- A record cut off by a crash. -/
def file : ByteArray := "\x7b\"a\"".toUTF8

def record : Value Empty := .obj [("b", .int 0)]

/-- `json.loads` on the lines below. -/
def loads (s : String) : Loaded Empty :=
  if s = "\x7b\"b\":0\x7d" then .value record else .garbled

end Torn

end Secdogie.Identity
