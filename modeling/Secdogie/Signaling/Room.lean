/-
# `Secdogie.Signaling.Room` — the signaling room of two browsers

A room relays the offers, answers and candidates of the sessions in it, and tells
each of the others: those present when it joins (`welcome`), and those that come and
go after.  A send that fails drops its session, which tells the rest of the room, by
sends that may fail in turn.

Here the room is a value, `fails` says of each send in turn whether it fails, and what
the room did is kept (`Act`).  A drop within a drop is bounded by the sessions that are
left; `drop_eq` is the recursion as the source has it.
-/
import Secdogie.Lib.Json

namespace Secdogie.Signaling

/-! ## What is sent -/

/-- The identifier of a session, a UUID. -/
abbrev Id := Str

def MAX_MESSAGE_BYTES : ℕ := 16 * 1024
def MAX_PEERS_PER_ROOM : ℕ := 2
def RATE_BURST : ℚ := 40
def RATE_REFILL_PER_SEC : ℚ := 10
def IDLE_TIMEOUT_MS : ℚ := 60000

def CLOSE_NORMAL : ℕ := 1000
def CLOSE_UNSUPPORTED_DATA : ℕ := 1003
def CLOSE_POLICY_VIOLATION : ℕ := 1008
def CLOSE_MESSAGE_TOO_BIG : ℕ := 1009
def CLOSE_INTERNAL_ERROR : ℕ := 1011
def CLOSE_ROOM_FULL : ℕ := 4001
def CLOSE_IDLE : ℕ := 4002

/-- `RELAY_TYPES` -/
inductive RelayType where
  | offer | answer | iceCandidate
deriving DecidableEq

def RelayType.name : RelayType → String
  | offer => "offer"
  | answer => "answer"
  | iceCandidate => "ice-candidate"

/-- `RELAY_TYPES.has` -/
def relayType (type : Option Json) : Option RelayType :=
  match type with
  | some (.str s) => [RelayType.offer, .answer, .iceCandidate].find? (fun t => Str.of t.name = s)
  | _ => none

inductive Payload where
  | description (type : RelayType) (sdp : Str)
  | candidate (candidate : Str) (sdpMid : Option Str) (sdpMLineIndex : Option Str)
      (usernameFragment : Option Str)

inductive Message where
  | welcome (peerId : Id) (peers : List Id)
  | peerJoined (peerId : Id)
  | peerLeft (peerId : Id)
  | relay (type : RelayType) (sender : Id) (payload : Payload)
  | error (code message : String)

/-- What the runtime gives: `JSON.parse`, `Number.isInteger` of a number as it is written, and
`crypto.randomUUID`, of which no two values are the same. -/
structure Runtime where
  parse : Str → Option Json
  isInteger : Str → Bool
  randomUUID : ℕ ↪ Id

section

variable (J : Runtime)

def stringField (o : Json.Dict) (k : String) : Option Str :=
  match Json.get o (Str.of k) with
  | some (.str s) => some s
  | _ => none

def integerField (o : Json.Dict) (k : String) : Option Str :=
  match Json.get o (Str.of k) with
  | some (.num n) => if J.isInteger n then some n else none
  | _ => none

def sanitizePayload (type : RelayType) (payload : Option Json) : Option Payload :=
  match payload with
  | some (.obj payload) =>
      match type with
      | .iceCandidate =>
          (stringField payload "candidate").map fun candidate =>
            .candidate candidate (stringField payload "sdpMid")
              (integerField J payload "sdpMLineIndex") (stringField payload "usernameFragment")
      | type =>
          if stringField payload "type" ≠ some (Str.of type.name) then none
          else (stringField payload "sdp").map (.description type)
  | _ => none

end

/-- What a socket gives. -/
inductive Frame where
  | binary
  | text (data : Str)

def utf16Length (s : Str) : ℕ := (s.map (fun c => if c < 0x10000 then 1 else 2)).sum

def utf8Length (s : Str) : ℕ :=
  (s.map (fun c => if c < 0x80 then 1 else if c < 0x800 then 2 else if c < 0x10000 then 3 else 4)).sum

/-! ## The room -/

structure Session where
  id : Id
  lastSeen : ℚ
  tokens : ℚ := RATE_BURST
  refilledAt : ℚ

def takeToken (session : Session) (now : ℚ) : Session × Bool :=
  let refill := (now - session.refilledAt) / 1000 * RATE_REFILL_PER_SEC
  let tokens := min RATE_BURST (session.tokens + refill)
  let session := { session with tokens, refilledAt := now }
  if tokens < 1 then (session, false) else ({ session with tokens := tokens - 1 }, true)

/-- What the room did: a message was sent, or could not be; a session entered or left, with
the room there was then; a socket was turned away. -/
inductive Act where
  | sent (dest : Id) (msg : Message)
  | failed (dest : Id) (msg : Message)
  | entered (room : List Id)
  | left (id : Id) (code : ℕ) (reason : String) (room : List Id)
  | turnedAway (told : Bool) (msg : Message) (code : ℕ) (reason : String)

structure Room where
  sessions : List Session := []
  /-- How many identifiers were given. -/
  issued : ℕ := 0
  /-- How many sends were tried. -/
  tries : ℕ := 0
  acts : List Act := []

namespace Room

def ids (r : Room) : List Id := r.sessions.map Session.id

def get (r : Room) (id : Id) : Option Session := r.sessions.find? (fun s => s.id = id)

/-- The session has changed. -/
def put (r : Room) (session : Session) : Room :=
  { r with sessions := r.sessions.map (fun s => if s.id = session.id then session else s) }

def delete (r : Room) (id : Id) (code : ℕ) (reason : String) : Room :=
  let sessions := r.sessions.filter (fun s => s.id ≠ id)
  { r with sessions, acts := r.acts ++ [Act.left id code reason (sessions.map Session.id)] }

section

variable (fails : ℕ → Bool)

def sendJson (r : Room) (dest : Id) (msg : Message) : Room × Bool :=
  if fails r.tries then
    ({ r with tries := r.tries + 1, acts := r.acts ++ [Act.failed dest msg] }, false)
  else ({ r with tries := r.tries + 1, acts := r.acts ++ [Act.sent dest msg] }, true)

/-- `send`, where a failed one does `drop` -/
def sendOr (drop : Room → Id → ℕ → String → Room) (r : Room) (dest : Id) (msg : Message) : Room :=
  let (r, ok) := r.sendJson fails dest msg
  if ok then r else drop r dest CLOSE_INTERNAL_ERROR "send failed"

/-- The loop of `broadcast` over the sessions there were when it began. -/
def broadcastLoop (drop : Room → Id → ℕ → String → Room) (except : Option Id) (msg : Message) :
    List Id → Room → Room
  | [], r => r
  | dest :: rest, r =>
      broadcastLoop drop except msg rest
        (if except = some dest then r else r.sendOr fails drop dest msg)

local instance lawful_id : LawfulBEq Id := inferInstance

/-- `drop`, with no more than so many drops within it. -/
def dropAt : ℕ → Room → Id → ℕ → String → Room
  | 0, r, _, _, _ => r
  | k + 1, r, id, code, reason =>
      if id ∉ r.ids then r
      else
        let r := r.delete id code reason
        broadcastLoop fails (dropAt k) none (.peerLeft id) r.ids r

def drop (r : Room) (id : Id) (code : ℕ) (reason : String) : Room :=
  dropAt fails r.sessions.length r id code reason

def send (r : Room) (dest : Id) (msg : Message) : Room := r.sendOr fails (drop fails) dest msg

def broadcast (r : Room) (except : Option Id) (msg : Message) : Room :=
  broadcastLoop fails (drop fails) except msg r.ids r

def reject (r : Room) (id : Id) (code message : String) : Room := r.send fails id (.error code message)

/-! ### The events -/

variable (J : Runtime)

def join (r : Room) (now : ℚ) : Room :=
  if MAX_PEERS_PER_ROOM ≤ r.sessions.length then
    { r with
      tries := r.tries + 1
      acts := r.acts ++ [Act.turnedAway (!fails r.tries)
        (.error "room-full" "room already has 2 peers") CLOSE_ROOM_FULL "room full"] }
  else
    let session : Session := { id := J.randomUUID r.issued, lastSeen := now, refilledAt := now }
    let peers := r.ids
    let sessions := r.sessions ++ [session]
    let r := { r with
      sessions, issued := r.issued + 1, acts := r.acts ++ [Act.entered (sessions.map Session.id)] }
    let r := r.send fails session.id (.welcome session.id peers)
    r.broadcast fails (some session.id) (.peerJoined session.id)

/-- A frame that is a JSON object. -/
def onObject (r : Room) (id : Id) (msg : Json.Dict) : Room :=
  if stringField msg "type" = some (Str.of "ping") then r
  else
    match relayType (Json.get msg (Str.of "type")) with
    | none => r.reject fails id "unsupported-type" "type must be one of: offer, answer, ice-candidate"
    | some type =>
        match sanitizePayload J type (Json.get msg (Str.of "payload")) with
        | none => r.reject fails id "bad-payload" ("invalid " ++ type.name ++ " payload")
        | some payload =>
            match (stringField msg "to").bind r.get with
            | none => r.reject fails id "unknown-peer" "target peer is not in this room"
            | some target =>
                if target.id = id then
                  r.reject fails id "unknown-peer" "target peer is not in this room"
                else r.send fails target.id (.relay type id payload)

def onMessage (r : Room) (id : Id) (now : ℚ) (data : Frame) : Room :=
  match r.get id with
  | none => r
  | some session =>
      let (session, ok) := takeToken { session with lastSeen := now } now
      let r := r.put session
      if ¬ ok then r.drop fails id CLOSE_POLICY_VIOLATION "rate limit exceeded"
      else
        match data with
        | .binary => r.drop fails id CLOSE_UNSUPPORTED_DATA "binary frames are not accepted"
        | .text data =>
            if MAX_MESSAGE_BYTES < utf16Length data ∨ MAX_MESSAGE_BYTES < utf8Length data then
              r.drop fails id CLOSE_MESSAGE_TOO_BIG "message too large"
            else
              match J.parse data with
              | none => r.reject fails id "bad-json" "message is not valid JSON"
              | some (.obj msg) => r.onObject fails J id msg
              | some _ => r.reject fails id "bad-message" "message must be a JSON object"

/-- The sessions that are swept are those there were when the alarm went off. -/
def alarm (r : Room) (now : ℚ) : Room :=
  let cutoff := now - IDLE_TIMEOUT_MS
  (r.sessions.filter (fun s => s.lastSeen < cutoff)).foldl
    (fun r session => r.drop fails session.id CLOSE_IDLE "idle timeout") r

/-- A socket arrives, or that of a session has a frame, closes or fails; an alarm goes off. -/
inductive Event where
  | join (now : ℚ)
  | message (id : Id) (now : ℚ) (data : Frame)
  | close (id : Id)
  | error (id : Id)
  | alarm (now : ℚ)

def step (r : Room) : Event → Room
  | .join now => r.join fails J now
  | .message id now data => r.onMessage fails J id now data
  | .close id => r.drop fails id CLOSE_NORMAL "closed"
  | .error id => r.drop fails id CLOSE_INTERNAL_ERROR "socket error"
  | .alarm now => r.alarm fails now

def run (events : List Event) : Room := events.foldl (step fails J) {}

end

end Room

end Secdogie.Signaling
