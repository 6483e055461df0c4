/-
# `Secdogie.Graph.Route` — the candidate states a page names

The scanner walks the tags of a page and reports the links and forms it names.
It slices the text by byte offsets: a slice that does not start and end on a
character panics, and so does one out of range.  A panic is a result here, and
so is a loop that would not end (`Halt`).

The text is its bytes; what is left of it stands for an offset.
-/
import Secdogie.Graph.Resolve
import Secdogie.Lib.StrMap
import Secdogie.Lib.Utf8

namespace Secdogie.Graph.Route

open Url (HttpsUrl Reject)
open Utf8 (isBoundary)

abbrev Bytes := List UInt8

def lit (s : String) : Bytes := Url.bytes s.toList

theorem lit_space : lit " \t\n\r\x0c" = [0x20, 0x09, 0x0a, 0x0d, 0x0c] := rfl
theorem lit_close : lit "</" = [0x3c, 0x2f] := rfl
theorem lit_comment : lit "<!--" = [0x3c, 0x21, 0x2d, 0x2d] := rfl
theorem lit_commentEnd : lit "-->" = [0x2d, 0x2d, 0x3e] := rfl
theorem lit_markup : lit "<!" = [0x3c, 0x21] := rfl
theorem lit_instruction : lit "<?" = [0x3c, 0x3f] := rfl
theorem lit_end : lit ">" = [0x3e] := rfl

/-- The text that bytes encode. -/
def chars (b : Bytes) : List Char :=
  match String.fromUTF8? ⟨b.toArray⟩ with
  | some s => s.toList
  | none => []

/-- How a call ends without a result. -/
inductive Halt where
  | panics
  | spins
deriving DecidableEq

abbrev Run (α : Type) := Except Halt α

/-! ## Slices -/

/-- `s[i..j]`, of what is left at `i` and the length `j - i` -/
def slice (t : Bytes) (k : Nat) : Run Bytes :=
  if k ≤ t.length ∧ isBoundary t = true ∧ isBoundary (t.drop k) = true then .ok (t.take k)
  else .error .panics

/-- `s[j..]`, of what is left at an offset `k` before -/
def sliceFrom (t : Bytes) (k : Nat) : Run Bytes :=
  if k ≤ t.length ∧ isBoundary (t.drop k) = true then .ok (t.drop k) else .error .panics

/-! ## Bytes -/

def isAlphabetic (b : UInt8) : Bool := decide (0x41 ≤ b ∧ b ≤ 0x5a ∨ 0x61 ≤ b ∧ b ≤ 0x7a)

def isDigit (b : UInt8) : Bool := decide (0x30 ≤ b ∧ b ≤ 0x39)

def lowerByte (b : UInt8) : UInt8 := if 0x41 ≤ b ∧ b ≤ 0x5a then b + 0x20 else b

/-- `to_ascii_lowercase` -/
def lower (s : Bytes) : Bytes := s.map lowerByte

def isWs (b : UInt8) : Bool := decide (b ∈ lit " \t\n\r\x0c")

/-- What is left where `needle` is found first. -/
def find (needle : Bytes) : Bytes → Option Bytes
  | [] => none
  | b :: t => if needle.isPrefixOf (b :: t) then some (b :: t) else find needle t

/-- The same, whatever the case of its letters. -/
def findCi (needle : Bytes) : Bytes → Option Bytes
  | [] => none
  | b :: t =>
      if (lower needle).isPrefixOf (lower (b :: t)) then some (b :: t) else findCi needle t

/-- What is left after `needle`, and nothing where it is not found. -/
def skipPast (needle t : Bytes) : Bytes :=
  match find needle t with
  | none => []
  | some u => u.drop needle.length

/-! ## Entities -/

def digitVal (b : UInt8) : Option Nat :=
  if 0x30 ≤ b ∧ b ≤ 0x39 then some (b.toNat - 0x30)
  else if 0x61 ≤ b ∧ b ≤ 0x66 then some (b.toNat - 0x57)
  else if 0x41 ≤ b ∧ b ≤ 0x46 then some (b.toNat - 0x37)
  else none

/-- `u32::from_str_radix`: digits, after a plus that may be there. -/
def fromStrRadix (radix : Nat) (s : Bytes) : Option Nat :=
  let digits := if s.head? = some 0x2b then s.drop 1 else s
  match digits with
  | [] => none
  | _ =>
      digits.foldl (fun n b =>
        match n, digitVal b with
        | some n, some d => if d < radix ∧ n * radix + d < 2 ^ 32 then some (n * radix + d) else none
        | _, _ => none) (some 0)

/-- `char::from_u32(n).unwrap_or('\u{fffd}')` -/
def charOf (n : Nat) : Char := if n.isValidChar then Char.ofNat n else '\ufffd'

/-- What a character reference stands for, if it is one that is known. -/
def reference (ent : Bytes) : Option Char :=
  if ent = lit "amp" then some '&'
  else if ent = lit "lt" then some '<'
  else if ent = lit "gt" then some '>'
  else if ent = lit "quot" then some '"'
  else if ent = lit "apos" then some '\''
  else if (lit "#x").isPrefixOf ent ∨ (lit "#X").isPrefixOf ent then
    (fromStrRadix 16 (ent.drop 2)).map charOf
  else if (lit "#").isPrefixOf ent then (fromStrRadix 10 (ent.drop 1)).map charOf
  else none

/-- The loop of `decode_entities`, over what is left. -/
def decodeRest : Nat → Bytes → Run Bytes
  | 0, _ => .error .spins
  | fuel + 1, rest => do
      let p := (rest.takeWhile (· != 0x26)).length
      if p = rest.length then .ok rest
      else
        let before ← slice rest p
        let rest ← sliceFrom rest p
        let window ← slice rest (min rest.length 12)
        let semi := (window.takeWhile (· != 0x3b)).length
        if semi = window.length then
          let rest ← sliceFrom rest 1
          let out ← decodeRest fuel rest
          .ok (before ++ 0x26 :: out)
        else
          let ent ← slice (rest.drop 1) (semi - 1)
          match reference ent with
          | some c =>
              let rest ← sliceFrom rest (semi + 1)
              let out ← decodeRest fuel rest
              .ok (before ++ String.utf8EncodeChar (if c = '\x00' then '\ufffd' else c) ++ out)
          | none =>
              let rest ← sliceFrom rest 1
              let out ← decodeRest fuel rest
              .ok (before ++ 0x26 :: out)

/-- Decodes the character references of an attribute value. -/
def decodeEntities (s : Bytes) : Run Bytes := decodeRest (s.length + 1) s

/-! ## Tags -/

def RAW_TEXT : List Bytes :=
  [lit "script", lit "style", lit "template", lit "textarea", lit "noscript", lit "xmp",
    lit "iframe", lit "noembed", lit "noframes", lit "title"]

structure Tag where
  name : Bytes
  isEnd : Bool
  attrs : List (Bytes × Bytes)
  offset : Nat
deriving DecidableEq

/-- `Tag::attr` -/
def Tag.attr (t : Tag) (name : String) : Option Bytes :=
  (t.attrs.find? (fun a => a.1 == lit name)).map Prod.snd

/-- A start tag after which there is only text; it is not visited itself. -/
def Tag.endsWalk (t : Tag) : Bool := !t.isEnd && t.name == lit "plaintext"

def isNameByte (b : UInt8) : Bool := isAlphabetic b || isDigit b || b == 0x2d || b == 0x3a

def isAttrByte (b : UInt8) : Bool := !isWs b && b != 0x3d && b != 0x3e && b != 0x2f

/-- The value of an attribute, after its name and blanks, and what is left. -/
def attrValue (t : Bytes) : Run (Bytes × Bytes) :=
  if t.head? = some 0x3d then
    let t := (t.drop 1).dropWhile isWs
    match t with
    | [] => do
        let value ← slice t 0
        .ok (value, t)
    | q :: u => do
        if q = 0x22 ∨ q = 0x27 then
          let k := (u.takeWhile (· != q)).length
          let value ← slice u k
          .ok (value, u.drop (k + 1))
        else
          let k := (t.takeWhile (fun b => !isWs b && b != 0x3e)).length
          let value ← slice t k
          .ok (value, t.drop k)
  else .ok ([], t)

section

-- what is made of a value: `decodeEntities`, or the value as it is written
variable (decode : Bytes → Run Bytes)

/-- The attributes of a tag, and what is left after its end; `none` when the text
ends before it. -/
def attributes : Nat → Bytes → Run (List (Bytes × Bytes) × Option Bytes)
  | 0, _ => .error .spins
  | fuel + 1, t =>
      match t.dropWhile (fun b => isWs b || b == 0x2f) with
      | [] => .ok ([], none)
      | b :: t =>
          if b = 0x3e then .ok ([], some t)
          else do
            let k := ((b :: t).takeWhile isAttrByte).length
            if k = 0 then attributes fuel t
            else
              let aname ← slice (b :: t) k
              let (value, rest) ← attrValue (((b :: t).drop k).dropWhile isWs)
              let value ← decode value
              let (attrs, rest) ← attributes fuel rest
              .ok ((lower aname, value) :: attrs, rest)

/-- The tag after a `<` at an offset, if one is there, and what is left after its
end. -/
def readTag (offset : Nat) (t : Bytes) : Run (Option (Tag × Option Bytes)) := do
  let isEnd := t.head? = some 0x2f
  let named := if isEnd then t.drop 1 else t
  if named.head?.any isAlphabetic = false then .ok none
  else
    let k := (named.takeWhile isNameByte).length
    let name ← slice named k
    let (attrs, rest) ← attributes decode (named.length + 1) (named.drop k)
    .ok (some ({ name := lower name, isEnd, attrs, offset }, rest))

/-- What comes next in a text. -/
inductive Piece where
  /-- there is no `<` -/
  | text
  /-- markup that is passed over -/
  | markup (rest : Bytes)
  | tag (t : Tag) (rest : Option Bytes)

/-- What comes next in what is left of a text of `n` bytes. -/
def nextPiece (n : Nat) (t : Bytes) : Run Piece :=
  match t.dropWhile (· != 0x3c) with
  | [] => .ok .text
  | lt :: t =>
      if (lit "<!--").isPrefixOf (lt :: t) then
        .ok (.markup (skipPast (lit "-->") ((lt :: t).drop 4)))
      else if (lit "<!").isPrefixOf (lt :: t) ∨ (lit "<?").isPrefixOf (lt :: t) then
        .ok (.markup (skipPast (lit ">") (lt :: t)))
      else do
        match ← readTag decode (n - (t.length + 1)) t with
        | none => .ok (.markup t)
        | some (tag, rest) => .ok (.tag tag rest)

/-- What is left after the raw text of a tag, of what is left after the tag. -/
def Tag.afterRaw (t : Tag) (rest : Bytes) : Bytes :=
  if t.isEnd = false ∧ t.name ∈ RAW_TEXT then (findCi (lit "</" ++ t.name) rest).getD [] else rest

/-- The tags of a text of `n` bytes, from what is left of it, each with what is
left after it.  Nothing is read after a `plaintext`. -/
def walk (n : Nat) : Nat → Bytes → Run (List (Tag × Option Bytes))
  | 0, _ => .error .spins
  | fuel + 1, t => do
      match ← nextPiece decode n t with
      | .text => .ok []
      | .markup rest => walk n fuel rest
      | .tag tag rest =>
          if tag.endsWalk then .ok [(tag, rest)]
          else
            let tags ← walk n fuel (tag.afterRaw (rest.getD []))
            .ok ((tag, rest) :: tags)

end

/-- The tags that `for_each_tag` visits. -/
def forEachTag (s : Bytes) : Run (List Tag) := do
  let tags ← walk decodeEntities s.length (s.length + 1) s
  .ok ((tags.map Prod.fst).filter (fun t => !t.endsWalk))

/-! ## The scan -/

def DEFAULT_MAX_BYTES : Nat := 8 <<< 20

def LINK_RELS : List (List Char) :=
  ["canonical".toList, "alternate".toList, "next".toList, "prev".toList]

structure ScanConfig where
  document_url : String
  allowed_origins : List String
  max_bytes : Nat
  max_candidates : Nat

structure CandidateState where
  origin : String
  route : String
  query_keys : List String
  via : Via
  method : Method
  fields : List String
  /-- the offset of the tag that named it -/
  offset : Nat
deriving DecidableEq

/-- What makes two candidates the same: everything but the offset. -/
def CandidateState.identity (c : CandidateState) :
    String × String × List String × Via × Method × List String :=
  (c.origin, c.route, c.query_keys, c.via, c.method, c.fields)

structure ScanResult where
  document : Option (String × String × List String) := none
  candidates : List CandidateState := []
  external : Nat := 0
  rejected : StrMap Nat := ∅
  skipped_password_forms : Nat := 0
  truncated : Bool := false

def Reject.label : Reject → String
  | .scheme => "scheme"
  | .credentials => "credentials"
  | .host => "host"
  | .malformed => "malformed"

def originOf (u : HttpsUrl) : String := String.ofList u.origin

/-- Counts one more under a label. -/
def ScanResult.reject (out : ScanResult) (label : String) : ScanResult :=
  { out with rejected := out.rejected.insert label ((out.rejected[label]?).getD 0 + 1) }

/-- A form whose end has not come. -/
structure FormAcc where
  action : Except Reject (Option HttpsUrl)
  method : Method
  fields : List String
  has_password : Bool
  offset : Nat

structure Scanner where
  base : HttpsUrl
  base_seen : Bool
  form : Option FormAcc
  out : ScanResult

section

variable (cfg : ScanConfig) (doc : HttpsUrl)

def allowed (u : HttpsUrl) : Bool := decide (originOf u ∈ cfg.allowed_origins)

/-- `emit`; the identities seen are those of the candidates. -/
def emit (out : ScanResult) (target : Except Reject (Option HttpsUrl)) (via : Via) (method : Method)
    (fields : List String) (offset : Nat) : ScanResult :=
  match target with
  | .error r => out.reject (Reject.label r)
  | .ok none => out
  | .ok (some u) =>
      if allowed cfg u = false then { out with external := out.external + 1 }
      else
        let c : CandidateState :=
          { origin := originOf u
            route := String.ofList u.path
            query_keys := u.queryKeys
            via
            method
            fields
            offset }
        if c.identity ∈ out.candidates.map CandidateState.identity then out
        else if cfg.max_candidates ≤ out.candidates.length then { out with truncated := true }
        else { out with candidates := out.candidates ++ [c] }

def closeForm (out : ScanResult) (f : FormAcc) : ScanResult :=
  if f.has_password then { out with skipped_password_forms := out.skipped_password_forms + 1 }
  else emit cfg out f.action .form f.method f.fields f.offset

/-- `char::is_whitespace` -/
def isWhite (c : Char) : Bool :=
  decide (9 ≤ c.toNat ∧ c.toNat ≤ 13 ∨ 0x2000 ≤ c.toNat ∧ c.toNat ≤ 0x200a ∨
    c.toNat ∈ [0x20, 0x85, 0xa0, 0x1680, 0x2028, 0x2029, 0x202f, 0x205f, 0x3000])

/-- `str::trim` -/
def trim (s : List Char) : List Char := Url.trimMatches isWhite s

/-- `split_ascii_whitespace` -/
def words (s : List Char) : List (List Char) :=
  (s.splitOnP (fun c => c ∈ [' ', '\t', '\n', '\r', '\x0c'])).filter (fun w => !w.isEmpty)

/-- The value of an attribute, as text. -/
def Tag.text (t : Tag) (name : String) : Option (List Char) := (t.attr name).map chars

/-- The name of a field, trimmed, unless it is empty or too long. -/
def fieldName (t : Tag) : Option String :=
  match (t.text "name").map trim with
  | some n => if n ≠ [] ∧ byteLen n ≤ 128 then some (String.ofList n) else none
  | none => none

/-- The tag of a field, in a form. -/
def addField (f : FormAcc) (t : Tag) : FormAcc :=
  let password := t.name = lit "input" ∧
    ((t.text "type").any (fun ty => Url.eqIgnoreAsciiCase (trim ty) "password".toList)) = true
  let f := if password then { f with has_password := true } else f
  match fieldName t with
  | none => f
  | some name =>
      if f.fields.length < MAX_FIELDS ∧ name ∉ f.fields then
        { f with fields := f.fields.orderedInsert (· ≤ ·) name }
      else f

/-- The form that a tag opens, unless it only closes a dialog. -/
def openForm (base : HttpsUrl) (t : Tag) : Option FormAcc :=
  let method := (trim ((t.text "method").getD "get".toList)).map Char.toLower
  if method = "dialog".toList then none
  else
    some
      { action :=
          match (t.text "action").map trim with
          | none => .ok (some doc)
          | some [] => .ok (some doc)
          | some a => Url.resolve base a
        method := if method = "post".toList then .post else .get
        fields := []
        has_password := false
        offset := t.offset }

/-- One tag of the page. -/
def visit (sc : Scanner) (t : Tag) : Scanner :=
  if t.name = lit "base" ∧ t.isEnd = false ∧ sc.base_seen = false then
    match t.text "href" with
    | none => sc
    | some href =>
        match Url.resolve doc href with
        | .ok (some u) =>
            if allowed cfg u then { sc with base_seen := true, base := u }
            else { sc with base_seen := true, out := sc.out.reject "base" }
        | _ => { sc with base_seen := true, out := sc.out.reject "base" }
  else if (t.name = lit "a" ∨ t.name = lit "area") ∧ t.isEnd = false then
    match t.text "href" with
    | none => sc
    | some href =>
        let via := if t.name = lit "a" then .a else .area
        { sc with out := emit cfg sc.out (Url.resolve sc.base href) via .get [] t.offset }
  else if t.name = lit "link" ∧ t.isEnd = false then
    let rel := ((t.text "rel").getD []).map Char.toLower
    if (words rel).any (fun r => r ∈ LINK_RELS) then
      match t.text "href" with
      | none => sc
      | some href => { sc with out := emit cfg sc.out (Url.resolve sc.base href) .link .get [] t.offset }
    else sc
  else if t.name = lit "form" ∧ t.isEnd = false ∧ sc.form.isNone then
    { sc with form := openForm doc sc.base t }
  else if t.name = lit "form" ∧ t.isEnd = true then
    match sc.form with
    | none => sc
    | some f => { sc with form := none, out := closeForm cfg sc.out f }
  else if t.name ∈ [lit "input", lit "select", lit "textarea", lit "button"] ∧ t.isEnd = false then
    { sc with form := sc.form.map (fun f => addField f t) }
  else sc

/-- The form that is open at the end of the page. -/
def finish (sc : Scanner) : ScanResult :=
  match sc.form with
  | none => sc.out
  | some f => closeForm cfg sc.out f

end

/-- Where a text of more than `k` bytes is cut: at `k`, or the character before. -/
def cutAt (b : Bytes) : Nat → Nat
  | 0 => 0
  | k + 1 => if isBoundary (b.drop (k + 1)) then k + 1 else cutAt b k

/-- The part of a page that is looked at. -/
def bounded (cfg : ScanConfig) (body : Bytes) : Bytes :=
  if cfg.max_bytes < body.length then body.take (cutAt body cfg.max_bytes) else body

/-- Why a configuration is refused. -/
inductive Refused where
  | origin (o : String)
  | noOrigins
  | documentUrl (r : Reject)
  | notAllowed

/-- `debug` is how Rust prints a string with its quotes. -/
def Refused.text (debug : String → String) : Refused → String
  | .origin o => "allowed origin " ++ debug o ++ " is not a canonical https origin"
  | .noOrigins =>
      "no allowed origins: the adapter reports nothing without an explicit allowlist"
  | .documentUrl r => "document URL refused (" ++ Reject.label r ++ ")"
  | .notAllowed => "document origin is not on the allowlist"

/-- The page's own URL, when the configuration is one to scan with. -/
def document (cfg : ScanConfig) : Except Refused HttpsUrl :=
  match cfg.allowed_origins.find? (fun o => !Url.isOrigin o) with
  | some o => .error (.origin o)
  | none =>
      if cfg.allowed_origins = [] then .error .noOrigins
      else
        match Url.parseHttps cfg.document_url.toList with
        | .error r => .error (.documentUrl r)
        | .ok doc => if allowed cfg doc then .ok doc else .error .notAllowed

/-- The scanner before the first tag. -/
def Scanner.start (doc : HttpsUrl) : Scanner :=
  { base := doc
    base_seen := false
    form := none
    out := { document := some (originOf doc, String.ofList doc.path, doc.queryKeys) } }

/-- Scans `body` as the page at the document URL. -/
def scan (cfg : ScanConfig) (body : Bytes) : Run (Except Refused ScanResult) :=
  match document cfg with
  | .error e => .ok (.error e)
  | .ok doc => do
      let tags ← forEachTag (bounded cfg body)
      let out := finish cfg (tags.foldl (visit cfg doc) (.start doc))
      .ok (.ok { out with
        truncated := out.truncated || decide (cfg.max_bytes < body.length) })

end Secdogie.Graph.Route
