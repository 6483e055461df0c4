/-
# `Secdogie.Graph.Url` — the URL subset a graph delta may name

Absolute `https:` URLs and normalized routes, as the conservative reader of
the source sees them: what needs IDNA, an IPv6 literal, user information or
another scheme is refused and never repaired.  A delta only uses the three
predicates at the end (`isOrigin`, `isRoute`, `isQueryKey`); what they call
is modelled with them, on the characters of the string.
-/
import Secdogie.Graph.Canon

namespace Secdogie.Graph.Url

def MAX_ROUTE : Nat := 2048
def MAX_KEY_LEN : Nat := 128

structure HttpsUrl where
  host : List Char
  port : Option Nat
  path : List Char
  query : Option (List Char)
deriving DecidableEq

inductive Reject where
  | scheme
  | credentials
  | host
  | malformed
deriving DecidableEq

def HttpsUrl.origin (u : HttpsUrl) : List Char :=
  match u.port with
  | some p => "https://".toList ++ u.host ++ ':' :: Nat.toDigits 10 p
  | none => "https://".toList ++ u.host

/-- `str::eq_ignore_ascii_case`. -/
def eqIgnoreAsciiCase (a b : List Char) : Bool := a.map Char.toLower == b.map Char.toLower

/-- The UTF-8 bytes of a text. -/
def bytes (s : List Char) : List UInt8 := s.flatMap String.utf8EncodeChar

def hasScheme (s : List Char) : Option (List Char) :=
  if ':' ∈ s then
    match s.takeWhile (· != ':') with
    | [] => none
    | first :: rest =>
        if first.isAlpha && rest.all (fun c => c.isAlphanum || c == '+' || c == '-' || c == '.')
        then some (first :: rest) else none
  else none

/-- `str::rsplit_once`: the parts before and after the last `c`. -/
def rsplitOnce (c : Char) (s : List Char) : Option (List Char × List Char) :=
  if c ∈ s then
    let after := (s.reverse.takeWhile (· != c)).reverse
    some (s.take (s.length - after.length - 1), after)
  else none

def parsePort : Option (List Char) → Except Reject (Option Nat)
  | none => .ok none
  | some [] => .ok none
  | some p =>
      if 5 < byteLen p || !p.all Char.isDigit then .error .malformed
      else
        let n := Nat.ofDigitChars 10 p 0
        if n = 443 then .ok none
        else if 1 ≤ n ∧ n ≤ 65535 then .ok (some n)
        else .error .malformed

def parseAuthority (authority : List Char) : Except Reject (List Char × Option Nat) :=
  if authority.head? = some '[' then .error .host
  else
    let (host, port) := match rsplitOnce ':' authority with
      | some (h, p) => (h, some p)
      | none => (authority, none)
    if host = [] then .error .malformed
    else if !host.all (fun c => c.toNat < 128) then .error .host
    else
      let host := host.map Char.toLower
      let okChars := host.all (fun c => c.isAlphanum || c == '.' || c == '-' || c == '_')
      if !okChars || (host.splitOn '.').any List.isEmpty then .error .host
      else (parsePort port).map (fun p => (host, p))

/-- Splits `path?query#fragment`, dropping the fragment. -/
def splitPathQuery (s : List Char) : List Char × Option (List Char) :=
  let s := s.takeWhile (· != '#')
  if '?' ∈ s then (s.takeWhile (· != '?'), some ((s.dropWhile (· != '?')).drop 1))
  else (s, none)

def hexUpper (n : Nat) : Char := (Nat.digitChar n).toUpper

/-- One byte of a path, percent-encoded unless it may stand as it is: the
bytes of the path percent-encode set are `"`, `#`, `<`, `>`, `?`, the
backtick and the braces. -/
def percentEncodeByte (b : UInt8) : List Char :=
  let n := b.toNat
  if 0x21 ≤ n ∧ n < 0x7f ∧ n ∉ [0x22, 0x23, 0x3c, 0x3e, 0x3f, 0x60, 0x7b, 0x7d] then
    [Char.ofNat n]
  else ['%', hexUpper (n / 16), hexUpper (n % 16)]

def percentEncode (s : List Char) : List Char := (bytes s).flatMap percentEncodeByte

def isDot (seg : List Char) : Bool :=
  seg == ['.'] || eqIgnoreAsciiCase seg "%2e".toList

def isDotdot (seg : List Char) : Bool :=
  ["..", ".%2e", "%2e.", "%2e%2e"].any (fun d => eqIgnoreAsciiCase seg d.toList)

/-- The segments that stay, `out` before what is still to come. -/
def dotSegments (out : List (List Char)) : List (List Char) → List (List Char)
  | [] => out
  | seg :: rest =>
      let last := rest.isEmpty
      let out :=
        if isDot seg then (if last then out ++ [[]] else out)
        else if isDotdot seg then
          (if last then out.dropLast ++ [[]] else out.dropLast)
        else out ++ [seg]
      dotSegments out rest

/-- RFC 3986 section 5.2.4 over an absolute path. -/
def removeDotSegments (path : List Char) : List Char :=
  let segs := (path.dropWhile (· == '/')).splitOn '/'
  '/' :: List.intercalate ['/'] (dotSegments [] segs)

def normalizePath (path : List Char) : List Char :=
  let p := if path.head? = some '/' then path else '/' :: path
  removeDotSegments (percentEncode p)

/-- Parses an absolute `https:` URL. -/
def parseHttps (s : List Char) : Except Reject HttpsUrl :=
  match hasScheme s with
  | none => .error .malformed
  | some scheme =>
      if !eqIgnoreAsciiCase scheme "https".toList then .error .scheme
      else
        match s.drop (scheme.length + 1) with
        | '/' :: '/' :: rest =>
            if '\\' ∈ s then .error .malformed
            else
              let stop := fun c : Char => c == '/' || c == '?' || c == '#'
              let authority := rest.takeWhile (fun c => !stop c)
              let tail := rest.dropWhile (fun c => !stop c)
              if '@' ∈ authority then .error .credentials
              else do
                let (host, port) ← parseAuthority authority
                let (path, query) := splitPathQuery tail
                let path := if path = [] then ['/'] else normalizePath path
                pure ⟨host, port, path, query⟩
        | _ => .error .malformed

/-- Whether `s` is exactly a canonical https origin (`https://host[:port]`). -/
def isOrigin (s : String) : Bool :=
  match parseHttps s.toList with
  | .ok u => u.path == ['/'] && u.query.isNone && s.toList.getLast? != some '/'
      && u.origin == s.toList
  | .error _ => false

/-- Whether `s` is a normalized route. -/
def isRoute (s : String) : Bool :=
  s.toList.head? == some '/' && decide (s.utf8ByteSize ≤ MAX_ROUTE)
    && normalizePath s.toList == s.toList

/-- Whether `k` is a query key name. -/
def isQueryKey (k : String) : Bool :=
  k != "" && decide (k.utf8ByteSize ≤ MAX_KEY_LEN * 3) && percentEncode k.toList == k.toList
    && !(k.toList.contains '&' || k.toList.contains '=')

end Secdogie.Graph.Url
