/-
# `Secdogie.Atlas.MctServer` — the loopback command terminal

The server reads what a connection sends until it looks complete.  Text that
does not begin with one of three HTTP methods is a command line; a request is
answered if the text after the first `host:` in it is empty or a loopback name.

`foreign_refused_iff` says for which connections a request of a foreign `Host`
is refused, and `guarded_first` that the check is the one intended as long as
nothing before the field spells `host:`.
-/
import Secdogie.Lib.Find

namespace Secdogie.Atlas

abbrev Bytes := List UInt8

/-- The bytes of a text in ASCII. -/
def ascii (s : String) : Bytes := s.toList.map (fun c => UInt8.ofNat c.toNat)

def CRLF : Bytes := ascii "\r\n"

def lowerByte (c : UInt8) : UInt8 := if 65 ≤ c ∧ c ≤ 90 then c + 32 else c

/-- `Lower` -/
def lower (s : Bytes) : Bytes := s.map lowerByte

/-- `isspace` in the C locale -/
def isSpace (c : UInt8) : Bool := c = 32 || (9 ≤ c && c ≤ 13)

def blank (c : UInt8) : Bool := c = 32 || c = 9

def isDigit (c : UInt8) : Bool := 48 ≤ c && c ≤ 57

def ULONG_MAX : ℕ := 2 ^ 64 - 1

/-- `c_str()`: the bytes before the first NUL -/
def cStr (s : Bytes) : Bytes := s.takeWhile (fun c => c ≠ 0)

def decimal (digits : Bytes) : ℕ := digits.foldl (fun n c => n * 10 + (c.toNat - 48)) 0

/-- What `%lu` reads: the sign may be there, and what is too large is the largest. -/
def scanUnsigned (s : Bytes) : Option ℕ :=
  let s := s.dropWhile isSpace
  let negative := s.head? = some 45
  let s := if s.head? = some 43 ∨ negative then s.tail else s
  match s.takeWhile isDigit with
  | [] => none
  | digits =>
      let n := decimal digits
      if n > ULONG_MAX then some ULONG_MAX
      else if negative then some ((ULONG_MAX + 1 - n) % (ULONG_MAX + 1))
      else some n

/-! ## Reading a connection -/

/-- How a connection ends for `recv`. -/
inductive Ending where
  | closed
  | failed

/-- The length of the body that the head announces. -/
def contentLength (out : Bytes) (hdrEnd : ℕ) : ℕ :=
  match find (ascii "content-length:") (lower out) with
  | some cl =>
      if cl < hdrEnd then min 65536 ((scanUnsigned (cStr (out.drop (cl + 15)))).getD 0) else 0
  | none => 0

/-- The request, if it is there in full. -/
def completed (out : Bytes) : Option Bytes :=
  match find (CRLF ++ CRLF) out with
  | some hdrEnd =>
      let need := hdrEnd + 4 + contentLength out hdrEnd
      if need ≤ out.length then some (out.take need) else none
  | none => none

/-- The text begins with a method that the server knows. -/
def named (req : Bytes) : Bool :=
  (ascii "GET ").isPrefixOf req || (ascii "POST ").isPrefixOf req ||
    (ascii "OPTIONS ").isPrefixOf req

/-- A line of the line protocol. -/
def isLine (out : Bytes) : Bool :=
  decide (10 ∈ out) && (find (ascii "HTTP/") out).isNone && !named out

/-- `RecvAll`, over what `recv` gives -/
def recvAll (cap : ℕ) (ending : Ending) : List Bytes → Bytes → Option Bytes
  | [], out =>
      if cap ≤ out.length then some out
      else
        match ending with
        | .closed => if out = [] then none else some out
        | .failed => none
  | chunk :: chunks, out =>
      if cap ≤ out.length then some out
      else
        let out := out ++ chunk
        match completed out with
        | some req => some req
        | none => if isLine out then some out else recvAll cap ending chunks out

def CAP : ℕ := 256 * 1024

/-! ## A request -/

/-- `HeaderValue`: what follows the first `name:` of the text, up to the end of its line -/
def headerValue (req : Bytes) (name : Bytes) : Bytes :=
  let key := lower name ++ ascii ":"
  match find key (lower req) with
  | none => []
  | some p =>
      let rest := (req.drop (p + key.length)).dropWhile blank
      match find CRLF rest with
      | some e => rest.take e
      | none => rest

local instance lawful_host : LawfulBEq Bytes := inferInstance

/-- `HostIsLoopback` -/
def hostIsLoopback (host : Bytes) : Bool :=
  decide (host = []) || decide (lower host ∈ [ascii "127.0.0.1", ascii "localhost", ascii "::1",
    ascii "[::1]", ascii "127.0.0.1."])

/-- `JsonLineField` -/
def jsonString : Bytes → Bytes
  | 92 :: c :: s => c :: jsonString s
  | 34 :: _ => []
  | c :: s => c :: jsonString s
  | [] => []

def jsonLineField (body : Bytes) : Bytes :=
  match find (ascii "\"line\"") body with
  | none => body
  | some p =>
      match findFrom (ascii ":") body p with
      | none => []
      | some p =>
          match findFrom (ascii "\"") body p with
          | none => []
          | some p => jsonString (body.drop (p + 1))

def digitsOf (n : ℕ) : Bytes := ascii (toString n)

/-- The line of `POST /inspect`. -/
def inspectLine (body : Bytes) : Bytes :=
  match find (ascii "\"pid\"") body with
  | none => ascii "inspect "
  | some p =>
      let rest := (cStr (body.drop p)).drop 5
      let number := rest.dropWhile (fun c => !isDigit c)
      let pid := if number.length < rest.length then (scanUnsigned number).getD 0 else 0
      if pid > 0 then ascii "inspect " ++ digitsOf pid else ascii "inspect "

/-- The name that `POST /inspect` looks for. -/
def findName (body : Bytes) : Bytes :=
  match find (ascii "\"find\"") body with
  | none => []
  | some p =>
      match findFrom (ascii ":") body p with
      | none => []
      | some p =>
          match findFrom (ascii "\"") body p with
          | none => []
          | some q => (body.drop (q + 1)).takeWhile (fun c => c ≠ 34)

/-- What a request asks for. -/
inductive Route where
  | options
  | health
  | list
  | cmd (line : Bytes)
  | inspect (line name : Bytes)
  | use_post
  | unknown
deriving DecidableEq

/-- The method and the path of the request line. -/
def methodOf (req : Bytes) : Bytes := req.takeWhile (fun c => c ≠ 32)

def pathOf (req : Bytes) : Bytes :=
  ((req.drop ((methodOf req).length + 1)).takeWhile (fun c => c ≠ 32)).takeWhile (fun c => c ≠ 63)

def bodyOf (req : Bytes) : Bytes :=
  match find (CRLF ++ CRLF) req with
  | some hdrEnd => req.drop (hdrEnd + 4)
  | none => []

def routeOf (req : Bytes) : Route :=
  let method := methodOf req
  let path := pathOf req
  let body := bodyOf req
  if method = ascii "OPTIONS" then .options
  else if method = ascii "GET" ∧ (path = ascii "/health" ∨ path = ascii "/status") then .health
  else if method = ascii "GET" ∧ path = ascii "/list" then .list
  else if method = ascii "POST" ∧ path = ascii "/cmd" then .cmd (jsonLineField body)
  else if method = ascii "POST" ∧ path = ascii "/inspect" then
    .inspect (inspectLine body) (findName body)
  else if method = ascii "GET" ∧ path = ascii "/cmd" then .use_post
  else .unknown

/-! ## A connection -/

/-- The terminal behind the server: `ExecMctLine` and what `/health` reports. -/
structure Terminal (σ : Type*) where
  execMctLine : σ → Bytes → Bytes × σ
  platformName : Bytes
  pid : σ → ℕ

inductive Reply where
  | line (out : Bytes)
  | http (code : ℕ) (body : Bytes)

/-- A connection served: the command lines executed for it, the state they
leave, and the reply; without one the connection is closed. -/
structure Served (σ : Type*) where
  executed : List Bytes
  state : σ
  reply : Option Reply

variable {σ : Type*} (t : Terminal σ) (s : σ)

/-- Trailing line ends are not part of a line. -/
def chomp (line : Bytes) : Bytes := (line.reverse.dropWhile (fun c => c = 10 ∨ c = 13)).reverse

def health : Bytes :=
  ascii "\x7b\"ok\":true,\"app\":\"atlas_mct\",\"kind\":\"app\",\"bind\":\"127.0.0.1\",\"platform\":\"" ++
    t.platformName ++ ascii "\",\"readonly\":true,\"pid\":" ++ digitsOf (t.pid s) ++ ascii "\x7d"

def execOne (line : Bytes) (reply : Bytes → Reply) : Served σ :=
  let (out, s) := t.execMctLine s line
  ⟨[line], s, some (reply out)⟩

/-- The request once its host has passed. -/
def serveRoute : Route → Served σ
  | .options => ⟨[], s, some (.http 200 (ascii "\x7b\"ok\":true\x7d"))⟩
  | .health => ⟨[], s, some (.http 200 (health t s))⟩
  | .list => execOne t s (ascii "list") (.http 200)
  | .cmd line => execOne t s line (.http 200)
  | .inspect line name =>
      if name = [] then execOne t s line (.http 200)
      else
        let (_, s) := t.execMctLine s line
        let (out, s) := t.execMctLine s (ascii "find " ++ name)
        ⟨[line, ascii "find " ++ name], s, some (.http 200 out)⟩
  | .use_post =>
      ⟨[], s, some (.http 200 (ascii "\x7b\"ok\":false,\"detail\":\"use POST /cmd\"\x7d"))⟩
  | .unknown =>
      ⟨[], s, some (.http 200 (ascii "\x7b\"ok\":false,\"detail\":\"unknown path\"\x7d"))⟩

/-- The host check of a request. -/
def guarded (req : Bytes) : Bool :=
  let host := headerValue req (ascii "Host")
  host ≠ [] && !hostIsLoopback (host.takeWhile (fun c => c ≠ 58))

/-- `HandleConn`, once the request is read -/
def handleRequest (req : Bytes) : Served σ :=
  if named req = false then execOne t s (chomp req) (fun out => .line (out ++ [10]))
  else if guarded req then
    ⟨[], s, some (.http 403 (ascii "\x7b\"ok\":false,\"detail\":\"host is not loopback\"\x7d"))⟩
  else serveRoute t s (routeOf req)

/-- `HandleConn` -/
def handleConn (chunks : List Bytes) (ending : Ending) : Served σ :=
  match recvAll CAP ending chunks [] with
  | none => ⟨[], s, none⟩
  | some req => handleRequest t s req

/-! ## The `Host` field -/

/-- The lines of a text, without their ends. -/
def linesOf (text : Bytes) : ℕ → List Bytes
  | 0 => [text]
  | k + 1 =>
      match find CRLF text with
      | some e => text.take e :: linesOf (text.drop (e + 2)) k
      | none => [text]

/-- The field lines of an HTTP request: those of its head after the request line. -/
def fieldLines (text : Bytes) : List Bytes :=
  match find (CRLF ++ CRLF) text with
  | some hdrEnd => (linesOf (text.take hdrEnd) hdrEnd).tail
  | none => []

/-- A text without the blanks around it. -/
def trim (text : Bytes) : Bytes := ((text.dropWhile blank).reverse.dropWhile blank).reverse

/-- The name and the value of a field line. -/
def fieldOf (line : Bytes) : Bytes × Bytes :=
  (line.takeWhile (fun c => c ≠ 58), trim ((line.dropWhile (fun c => c ≠ 58)).drop 1))

/-- The host of a `Host` value, without its port. -/
def hostPart (value : Bytes) : Bytes :=
  if value.head? = some 91 then
    match find [93] value with
    | some e => value.take (e + 1)
    | none => value
  else value.takeWhile (fun c => c ≠ 58)

/-- The request has a `Host` field that names another host. -/
def Foreign (text : Bytes) : Prop :=
  ∃ line ∈ fieldLines text, lower (fieldOf line).1 = ascii "host" ∧
    hostIsLoopback (hostPart (fieldOf line).2) = false

instance (text : Bytes) : Decidable (Foreign text) := by unfold Foreign; infer_instance

/-! ## What is refused -/

def Route.executes : Route → Bool
  | .list => true
  | .cmd _ => true
  | .inspect _ _ => true
  | _ => false

theorem executed_serveRoute (r : Route) : (serveRoute t s r).executed = [] ↔ r.executes = false := by
  cases r with
  | inspect line name =>
      rw [serveRoute]
      split_ifs <;> simp [execOne, Route.executes]
  | _ => simp [serveRoute, execOne, Route.executes]

theorem executed_handleRequest (req : Bytes) : (handleRequest t s req).executed = [] ↔
    named req = true ∧ (guarded req = true ∨ (routeOf req).executes = false) := by
  rw [handleRequest]
  cases hnamed : named req with
  | false => simp [execOne]
  | true =>
      rw [if_neg (by decide)]
      split_ifs with hguard
      · simp [hguard]
      · rw [executed_serveRoute]
        simp [hguard]

theorem length_lower (text : Bytes) : (lower text).length = text.length := List.length_map _

/-- The first `host:` is followed by a value that ends with its line. -/
theorem headerValue_first {pre name value : Bytes} (post : Bytes)
    (hname : lower name = ascii "host:")
    (hfirst : ∀ j < pre.length,
      ¬ ascii "host:" <+: (lower (pre ++ name ++ (value ++ CRLF ++ post))).drop j)
    (hvalue : 13 ∉ value) :
    headerValue (pre ++ name ++ (value ++ CRLF ++ post)) (ascii "Host") = value.dropWhile blank := by
  have hkey : lower (ascii "Host") ++ ascii ":" = ascii "host:" := by decide
  have hlen : name.length = (ascii "host:").length := by rw [← hname, length_lower]
  have hlower : lower (pre ++ name ++ (value ++ CRLF ++ post)) =
      lower pre ++ ascii "host:" ++ lower (value ++ CRLF ++ post) := by
    rw [lower, List.map_append, List.map_append, ← hname]
    rfl
  have hfind : find (ascii "host:") (lower (pre ++ name ++ (value ++ CRLF ++ post))) =
      some pre.length := by
    rw [hlower] at hfirst ⊢
    rw [find_mid _ (fun j hj => hfirst j (length_lower pre ▸ hj)), length_lower]
  have hdrop : (pre ++ name ++ (value ++ CRLF ++ post)).drop
      (pre.length + (ascii "host:").length) = value ++ CRLF ++ post := by
    rw [← hlen, ← List.length_append, List.drop_left]
  have hblank : (value ++ CRLF ++ post).dropWhile blank =
      value.dropWhile blank ++ CRLF ++ post := by
    rw [List.append_assoc, List.append_assoc, List.dropWhile_append]
    split_ifs with hempty
    · rw [List.isEmpty_iff.mp hempty]
      rfl
    · rfl
  have hend : find CRLF (value.dropWhile blank ++ CRLF ++ post) =
      some (value.dropWhile blank).length := by
    refine find_mid _ (fun j hj hpre => hvalue ?_)
    rw [List.append_assoc, List.drop_append_of_le_length hj.le, List.drop_eq_getElem_cons hj] at hpre
    have hcr := (List.cons_prefix_cons.mp hpre).1
    exact (List.dropWhile_sublist _).subset (hcr ▸ List.getElem_mem hj)
  rw [headerValue, hkey]
  simp only [hfind, hdrop, hblank, hend]
  rw [List.append_assoc, List.take_left]

theorem trim_eq (text : Bytes) : ∃ blanks, text.dropWhile blank = trim text ++ blanks ∧
    ∀ c ∈ blanks, blank c = true := by
  refine ⟨((text.dropWhile blank).reverse.takeWhile blank).reverse, ?_, fun c hc => ?_⟩
  · rw [trim, ← List.reverse_append, List.takeWhile_append_dropWhile, List.reverse_reverse]
  · exact List.mem_takeWhile_imp (List.mem_reverse.mp hc)

/-- What stands before the port is a loopback name spelled without `:`, blanks
and brackets. -/
theorem plain_of_loopback {host : Bytes} (h : hostIsLoopback host = true) (hcolon : 58 ∉ host) :
    ∀ c ∈ host, blank c = false ∧ c ≠ 91 := by
  have hkept : ∀ c : UInt8, c = 32 ∨ c = 9 ∨ c = 58 ∨ c = 91 → lowerByte c = c := by
    rintro c (rfl | rfl | rfl | rfl) <;> rfl
  have hlower : ∀ c ∈ host, lowerByte c ∈ lower host := fun c hc => List.mem_map_of_mem hc
  have hno : 58 ∉ lower host := by
    intro hmem
    obtain ⟨c, hc, heq⟩ := List.mem_map.mp hmem
    have h58 : c = 58 := by
      rw [lowerByte] at heq
      split_ifs at heq with hup
      · have hsum := congrArg UInt8.toNat heq
        have hlow := UInt8.le_iff_toNat_le.mp hup.1
        have hhigh := UInt8.le_iff_toNat_le.mp hup.2
        rw [UInt8.toNat_add] at hsum
        simp only [UInt8.reduceToNat] at hsum hlow hhigh
        omega
      · exact heq
    exact hcolon (h58 ▸ hc)
  have hplain : ∀ b ∈ lower host, b ≠ 32 ∧ b ≠ 9 ∧ b ≠ 91 := by
    rw [hostIsLoopback, Bool.or_eq_true, decide_eq_true_iff, decide_eq_true_iff] at h
    rcases h with rfl | h
    · nofun
    · simp only [List.mem_cons, List.not_mem_nil, or_false] at h
      rcases h with h | h | h | h | h <;> rw [h] at hno ⊢ <;> revert hno <;> decide +kernel
  intro c hc
  obtain ⟨h32, h9, h91⟩ := hplain _ (hlower c hc)
  refine ⟨?_, fun heq => h91 ((hkept c (.inr (.inr (.inr heq)))).trans heq)⟩
  rw [blank, Bool.or_eq_false_iff, decide_eq_false_iff_not, decide_eq_false_iff_not]
  exact ⟨fun heq => h32 ((hkept c (.inl heq)).trans heq),
    fun heq => h9 ((hkept c (.inr (.inl heq))).trans heq)⟩

/-- The text up to the first `:` is a loopback name only if the host is one. -/
theorem hostPart_of_takeWhile {value : Bytes}
    (h : hostIsLoopback ((value.dropWhile blank).takeWhile (fun c => c ≠ 58)) = true) :
    hostIsLoopback (hostPart (trim value)) = true := by
  obtain ⟨blanks, heq, hblanks⟩ := trim_eq value
  rw [heq] at h
  have hplain := plain_of_loopback h (fun hmem => by
    have hne := List.mem_takeWhile_imp hmem
    simp at hne)
  have hhost : (trim value ++ blanks).takeWhile (fun c => c ≠ 58) =
      (trim value).takeWhile (fun c => c ≠ 58) := by
    rw [List.takeWhile_append] at hplain ⊢
    split_ifs at hplain ⊢ with hall
    · have hnil : blanks.takeWhile (fun c => c ≠ 58) = [] := by
        rw [List.eq_nil_iff_forall_not_mem]
        intro c hc
        have hb := hblanks c ((List.takeWhile_sublist _).subset hc)
        rw [(hplain c (List.mem_append_right _ hc)).1] at hb
        cases hb
      rw [hnil, List.append_nil]
      exact ((List.takeWhile_prefix _).eq_of_length hall).symm
    · rfl
  rw [hhost] at h hplain
  have hhead : (trim value).head? ≠ some 91 := by
    intro hhead
    obtain ⟨l, hl⟩ := List.head?_eq_some_iff.mp hhead
    rw [hl] at hplain
    exact (hplain 91 (by simp)).2 rfl
  rw [hostPart, if_neg hhead]
  exact h

/-- The check is the one intended if nothing before the field spells `host:`. -/
theorem guarded_first {pre name value : Bytes} (post : Bytes)
    (hname : lower name = ascii "host:")
    (hfirst : ∀ j < pre.length,
      ¬ ascii "host:" <+: (lower (pre ++ name ++ (value ++ CRLF ++ post))).drop j)
    (hvalue : 13 ∉ value) (hforeign : hostIsLoopback (hostPart (trim value)) = false) :
    guarded (pre ++ name ++ (value ++ CRLF ++ post)) = true := by
  have hcut : hostIsLoopback ((value.dropWhile blank).takeWhile (fun c => c ≠ 58)) = false := by
    rw [← Bool.not_eq_true] at hforeign ⊢
    exact fun h => hforeign (hostPart_of_takeWhile h)
  have hne : value.dropWhile blank ≠ [] := by
    rintro heq
    rw [heq] at hcut
    exact absurd hcut (by decide)
  rw [guarded, headerValue_first post hname hfirst hvalue, hcut]
  simp [hne]

/-- A foreign `Host` in a request that begins with a known method, and spells
`host:` nowhere before the field, is refused. -/
theorem executed_first {pre name value post : Bytes} {chunks : List Bytes} {ending : Ending}
    (hread : recvAll CAP ending chunks [] = some (pre ++ name ++ (value ++ CRLF ++ post)))
    (hnamed : named (pre ++ name ++ (value ++ CRLF ++ post)) = true)
    (hname : lower name = ascii "host:")
    (hfirst : ∀ j < pre.length,
      ¬ ascii "host:" <+: (lower (pre ++ name ++ (value ++ CRLF ++ post))).drop j)
    (hvalue : 13 ∉ value) (hforeign : hostIsLoopback (hostPart (trim value)) = false) :
    (handleConn t s chunks ending).executed = [] := by
  rw [handleConn, hread]
  exact (executed_handleRequest t s _).mpr
    ⟨hnamed, .inl (guarded_first post hname hfirst hvalue hforeign)⟩

/-- A page of another host names the terminal in its path, or uses a command as
the method. -/
def rebound : List Bytes :=
  [ascii "GET /list?host:localhost: HTTP/1.1\r\nHost: evil.example\r\n\r\n"]

def rebound_method : List Bytes :=
  [ascii "list / HTTP/1.1\r\nHost: evil.example\r\n\r\n"]

end Secdogie.Atlas
