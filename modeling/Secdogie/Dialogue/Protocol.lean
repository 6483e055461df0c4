/-
# `Secdogie.Dialogue.Protocol` — the packets of the dialogue protocol

The wire between an operator's Dialogue App and an Agent node, v1: one
dataclass for each kind of packet, with the checks of its `__post_init__`, and
`from_wire`, which reads the object that a kind calls for.

`codec` is what the codec promises: a packet is read back from its wire form
unless the expiry of a challenge is an infinity or NaN, and an object that is
accepted has exactly the fields its kind calls for, each of the right type,
and is written as it was read, except that an expiry may have come as an
integer.
-/
import Secdogie.Agent.Action
import Secdogie.Dialogue.Wire

namespace Secdogie.Dialogue

open Secdogie.Graph Secdogie.Identity

inductive PacketKind where
  | dialogue
  | state_snapshot
  | gate2_challenge
  | gate2_response
  | session
  | control
  | memory_candidate
deriving DecidableEq

instance : StrEnum PacketKind where
  members := [.dialogue, .state_snapshot, .gate2_challenge, .gate2_response, .session, .control,
    .memory_candidate]
  val
    | .dialogue => "dialogue"
    | .state_snapshot => "state_snapshot"
    | .gate2_challenge => "gate2_challenge"
    | .gate2_response => "gate2_response"
    | .session => "session"
    | .control => "control"
    | .memory_candidate => "memory_candidate"
  mem_members a := by cases a <;> decide
  val_inj := by
    intro a b h
    cases a <;> cases b <;> first | rfl | exact absurd h (by decide)

/-! ## Socratic dialogue -/

inductive DialogueType where
  | socratic_question
  | user_clarification
  | system_status
deriving DecidableEq

instance : StrEnum DialogueType where
  members := [.socratic_question, .user_clarification, .system_status]
  val
    | .socratic_question => "SocraticQuestion"
    | .user_clarification => "UserClarification"
    | .system_status => "SystemStatus"
  mem_members a := by cases a <;> decide
  val_inj := by
    intro a b h
    cases a <;> cases b <;> first | rfl | exact absurd h (by decide)

structure DialoguePacket where
  probe_id : String
  dialogue_type : DialogueType
  content : String
  /-- a clarification names the probe it answers -/
  in_reply_to : String
  suggested_options : List String
  gate_finding : String

instance : PostInit DialoguePacket where
  post_init p :=
    if p.dialogue_type = .user_clarification ∧ p.in_reply_to = "" then
      some "a clarification must name the probe it answers (in_reply_to)"
    else if p.dialogue_type = .socratic_question ∧ p.probe_id = "" then
      some "a probe needs a probe_id"
    else none

section

variable {F : Type}

instance : Dataclass F DialoguePacket where
  Args := String × DialogueType × String × String × List String × String × Unit
  signature := .cons "probe_id" <| .cons "dialogue_type" <| .cons "content" <|
    .cons "in_reply_to" <| .cons "suggested_options" <| .cons "gate_finding" .nil
  args p := (p.probe_id, p.dialogue_type, p.content, p.in_reply_to, p.suggested_options,
    p.gate_finding, ())
  make
    | (probe_id, dialogue_type, content, in_reply_to, suggested_options, gate_finding, ()) =>
        ⟨probe_id, dialogue_type, content, in_reply_to, suggested_options, gate_finding⟩
  make_args _ := rfl
  args_make _ := rfl
  names_nodup := by simp [Fields.names]

end

/-! ## The structural view -/

inductive NodeOp where
  | add
  | update
  | remove
deriving DecidableEq

instance : StrEnum NodeOp where
  members := [.add, .update, .remove]
  val
    | .add => "add"
    | .update => "update"
    | .remove => "remove"
  mem_members a := by cases a <;> decide
  val_inj := by
    intro a b h
    cases a <;> cases b <;> first | rfl | exact absurd h (by decide)

/-- One change to the structural tree. -/
structure NodeDelta where
  op : NodeOp
  index : Int
  automation_id : String
  path_index : List Int
  role : String
  name : String
  /-- x, y, w, h -/
  bounds : List.Vector Int 4
  enabled : Bool
  is_interactive : Bool
  /-- -1 for a root -/
  parent_index : Int

instance : PostInit NodeDelta where
  post_init d :=
    if d.index < 0 then some "node index must be non-negative"
    else if d.parent_index < -1 ∨ d.parent_index = d.index then
      some "parent_index must be -1 or another node's index"
    else none

/-- Metadata about a node that a bitmap covers. -/
structure DibRef where
  node_index : Int
  width : Int
  height : Int
  pixel_format : String
  content_hash : String

instance : PostInit DibRef where
  post_init r :=
    if r.node_index < 0 ∨ r.width < 0 ∨ r.height < 0 then
      some "DibRef index and size must be non-negative"
    else none

structure StateSnapshotPacket where
  window_id : Int
  app_pid : Int
  generation : Int
  nodes : List (Made NodeDelta)
  dib_references : List (Made DibRef)
  /-- -1 for none -/
  focused_node_index : Int
  /-- replaces the whole tree -/
  full : Bool
  /-- the generation a delta applies to; -1 for a full snapshot -/
  base_generation : Int

instance : PostInit StateSnapshotPacket where
  post_init p :=
    if p.generation < 0 then some "generation must be non-negative"
    else if p.full ∧ p.nodes.any (fun d => decide (d.obj.op = .remove)) then
      some "a full snapshot lists the tree; it cannot remove nodes"
    else if p.full ∧ p.base_generation ≠ -1 then some "a full snapshot has no base generation"
    else if p.full = false ∧ ¬ (0 ≤ p.base_generation ∧ p.base_generation < p.generation) then
      some "a delta names the earlier generation it applies to"
    else none

section

variable {F : Type}

instance : Dataclass F NodeDelta where
  Args := NodeOp × Int × String × List Int × String × String × List.Vector Int 4 × Bool × Bool ×
    Int × Unit
  signature := .cons "op" <| .cons "index" <| .cons "automation_id" <| .cons "path_index" <|
    .cons "role" <| .cons "name" <| .cons "bounds" <| .cons "enabled" <|
    .cons "is_interactive" <| .cons "parent_index" .nil
  args d := (d.op, d.index, d.automation_id, d.path_index, d.role, d.name, d.bounds, d.enabled,
    d.is_interactive, d.parent_index, ())
  make
    | (op, index, automation_id, path_index, role, name, bounds, enabled, is_interactive,
        parent_index, ()) =>
        ⟨op, index, automation_id, path_index, role, name, bounds, enabled, is_interactive,
          parent_index⟩
  make_args _ := rfl
  args_make _ := rfl
  names_nodup := by simp [Fields.names]

instance : Dataclass F DibRef where
  Args := Int × Int × Int × String × String × Unit
  signature := .cons "node_index" <| .cons "width" <| .cons "height" <| .cons "pixel_format" <|
    .cons "content_hash" .nil
  args r := (r.node_index, r.width, r.height, r.pixel_format, r.content_hash, ())
  make
    | (node_index, width, height, pixel_format, content_hash, ()) =>
        ⟨node_index, width, height, pixel_format, content_hash⟩
  make_args _ := rfl
  args_make _ := rfl
  names_nodup := by simp [Fields.names]

instance : Dataclass F StateSnapshotPacket where
  Args := Int × Int × Int × List (Made NodeDelta) × List (Made DibRef) × Int × Bool × Int × Unit
  signature := .cons "window_id" <| .cons "app_pid" <| .cons "generation" <| .cons "nodes" <|
    .cons "dib_references" <| .cons "focused_node_index" <| .cons "full" <|
    .cons "base_generation" .nil
  args p := (p.window_id, p.app_pid, p.generation, p.nodes, p.dib_references,
    p.focused_node_index, p.full, p.base_generation, ())
  make
    | (window_id, app_pid, generation, nodes, dib_references, focused_node_index, full,
        base_generation, ()) =>
        ⟨window_id, app_pid, generation, nodes, dib_references, focused_node_index, full,
          base_generation⟩
  make_args _ := rfl
  args_make _ := rfl
  names_nodup := by simp [Fields.names]

end

/-! ## Gate 2 -/

inductive RiskLevel where
  | low
  | high
  | irreversible
deriving DecidableEq

instance : StrEnum RiskLevel where
  members := [.low, .high, .irreversible]
  val
    | .low => "low"
    | .high => "high"
    | .irreversible => "irreversible"
  mem_members a := by cases a <;> decide
  val_inj := by
    intro a b h
    cases a <;> cases b <;> first | rfl | exact absurd h (by decide)

/-- What the hash of an action commits to. -/
structure TargetAction where
  kind : String
  target_id : String
  target_role : String
  target_name : String
  text : String
  high_risk : Bool

instance : PostInit TargetAction where
  post_init _ := none

structure Gate2ChallengePacket (F : Type) where
  challenge_id : String
  target_action : Made TargetAction
  risk_level : RiskLevel
  risk_explanation : String
  /-- what the node claims; the App recomputes and compares -/
  action_hash : String
  /-- the node the authorization would be for -/
  subject_did : String
  expires_at : F

instance {F : Type} : PostInit (Gate2ChallengePacket F) where
  post_init _ := none

inductive Verdict where
  | approve
  | deny
deriving DecidableEq

instance : StrEnum Verdict where
  members := [.approve, .deny]
  val
    | .approve => "Approve"
    | .deny => "Deny"
  mem_members a := by cases a <;> decide
  val_inj := by
    intro a b h
    cases a <;> cases b <;> first | rfl | exact absurd h (by decide)

structure Gate2ResponsePacket (F : Type) where
  challenge_id : String
  /-- the hash the App computed locally -/
  action_hash : String
  user_verdict : Verdict
  /-- the token on an Approve -/
  authorization : PyDict F

instance {F : Type} : PostInit (Gate2ResponsePacket F) where
  post_init p :=
    if p.user_verdict = .deny ∧ ¬ p.authorization.members.isEmpty then
      some "a Deny carries no authorization"
    else if p.user_verdict = .approve ∧ p.authorization.members.isEmpty then
      some "an Approve must carry the signed authorization"
    else none

section

variable {F : Type}

instance : Dataclass F TargetAction where
  Args := String × String × String × String × String × Bool × Unit
  signature := .cons "kind" <| .cons "target_id" <| .cons "target_role" <|
    .cons "target_name" <| .cons "text" <| .cons "high_risk" .nil
  args a := (a.kind, a.target_id, a.target_role, a.target_name, a.text, a.high_risk, ())
  make
    | (kind, target_id, target_role, target_name, text, high_risk, ()) =>
        ⟨kind, target_id, target_role, target_name, text, high_risk⟩
  make_args _ := rfl
  args_make _ := rfl
  names_nodup := by simp [Fields.names]

instance [PyFloat F] : Dataclass F (Gate2ChallengePacket F) where
  Args := String × Made TargetAction × RiskLevel × String × String × String × F × Unit
  signature := .cons "challenge_id" <| .cons "target_action" <| .cons "risk_level" <|
    .cons "risk_explanation" <| .cons "action_hash" <| .cons "subject_did" <|
    .cons "expires_at" .nil
  args p := (p.challenge_id, p.target_action, p.risk_level, p.risk_explanation, p.action_hash,
    p.subject_did, p.expires_at, ())
  make
    | (challenge_id, target_action, risk_level, risk_explanation, action_hash, subject_did,
        expires_at, ()) =>
        ⟨challenge_id, target_action, risk_level, risk_explanation, action_hash, subject_did,
          expires_at⟩
  make_args _ := rfl
  args_make _ := rfl
  names_nodup := by simp [Fields.names]

instance : Dataclass F (Gate2ResponsePacket F) where
  Args := String × String × Verdict × PyDict F × Unit
  signature := .cons "challenge_id" <| .cons "action_hash" <| .cons "user_verdict" <|
    .cons "authorization" .nil
  args p := (p.challenge_id, p.action_hash, p.user_verdict, p.authorization, ())
  make
    | (challenge_id, action_hash, user_verdict, authorization, ()) =>
        ⟨challenge_id, action_hash, user_verdict, authorization⟩
  make_args _ := rfl
  args_make _ := rfl
  names_nodup := by simp [Fields.names]

end

/-! ## Session and operator control -/

inductive SessionEvent where
  | hello
  | heartbeat
  | bye
  /-- asks for a full snapshot -/
  | resync
deriving DecidableEq

instance : StrEnum SessionEvent where
  members := [.hello, .heartbeat, .bye, .resync]
  val
    | .hello => "hello"
    | .heartbeat => "heartbeat"
    | .bye => "bye"
    | .resync => "resync"
  mem_members a := by cases a <;> decide
  val_inj := by
    intro a b h
    cases a <;> cases b <;> first | rfl | exact absurd h (by decide)

structure SessionPacket where
  event : SessionEvent
  note : String

instance : PostInit SessionPacket where
  post_init _ := none

inductive ControlOp where
  | add_goal
  | stop
  | pause
  | resume
  | confirm_memory
  | retract_memory
deriving DecidableEq

instance : StrEnum ControlOp where
  members := [.add_goal, .stop, .pause, .resume, .confirm_memory, .retract_memory]
  val
    | .add_goal => "add_goal"
    | .stop => "stop"
    | .pause => "pause"
    | .resume => "resume"
    | .confirm_memory => "confirm_memory"
    | .retract_memory => "retract_memory"
  mem_members a := by cases a <;> decide
  val_inj := by
    intro a b h
    cases a <;> cases b <;> first | rfl | exact absurd h (by decide)

def GOAL_OPS : List ControlOp := [.add_goal, .stop, .pause, .resume]

/-- `not s.strip()` -/
def blank (s : String) : Bool := s.toList.all (fun c => Agent.isSpace c.toNat)

/-- One operator request. -/
structure ControlPacket (F : Type) where
  request_id : String
  op : ControlOp
  goal_id : String
  title : String
  memory_id : String
  confirmation : PyDict F

instance {F : Type} : PostInit (ControlPacket F) where
  post_init p :=
    let op := StrEnum.val p.op
    if p.request_id = "" then some "a control request needs a request_id"
    else if p.op ∈ GOAL_OPS ∧ p.goal_id = "" then some s!"{op} needs a goal_id"
    else if p.op = .add_goal ∧ blank p.title then some "add_goal needs a title (the task)"
    else if p.op ∈ [ControlOp.confirm_memory, .retract_memory] ∧ p.memory_id = "" then
      some s!"{op} needs a memory_id"
    else if decide (p.op = .confirm_memory) ≠ !p.confirmation.members.isEmpty then
      some "only confirm_memory carries a confirmation, and it always does"
    else none

/-- A quarantined memory that the operator may confirm. -/
structure MemoryCandidatePacket where
  memory_id : String
  mclass : String
  scope : String
  key : String
  value : String
  source : String

instance : PostInit MemoryCandidatePacket where
  post_init p :=
    if p.memory_id = "" then some "a memory candidate needs its memory_id"
    else if blank p.key ∨ blank p.value then some "a memory candidate needs a key and a value"
    else none

section

variable {F : Type}

instance : Dataclass F SessionPacket where
  Args := SessionEvent × String × Unit
  signature := .cons "event" <| .cons "note" .nil
  args p := (p.event, p.note, ())
  make
    | (event, note, ()) => ⟨event, note⟩
  make_args _ := rfl
  args_make _ := rfl
  names_nodup := by simp [Fields.names]

instance : Dataclass F (ControlPacket F) where
  Args := String × ControlOp × String × String × String × PyDict F × Unit
  signature := .cons "request_id" <| .cons "op" <| .cons "goal_id" <| .cons "title" <|
    .cons "memory_id" <| .cons "confirmation" .nil
  args p := (p.request_id, p.op, p.goal_id, p.title, p.memory_id, p.confirmation, ())
  make
    | (request_id, op, goal_id, title, memory_id, confirmation, ()) =>
        ⟨request_id, op, goal_id, title, memory_id, confirmation⟩
  make_args _ := rfl
  args_make _ := rfl
  names_nodup := by simp [Fields.names]

instance : Dataclass F MemoryCandidatePacket where
  Args := String × String × String × String × String × String × Unit
  signature := .cons "memory_id" <| .cons "mclass" <| .cons "scope" <| .cons "key" <|
    .cons "value" <| .cons "source" .nil
  args p := (p.memory_id, p.mclass, p.scope, p.key, p.value, p.source, ())
  make
    | (memory_id, mclass, scope, key, value, source, ()) =>
        ⟨memory_id, mclass, scope, key, value, source⟩
  make_args _ := rfl
  args_make _ := rfl
  names_nodup := by simp [Fields.names]

end

/-! ## Packets -/

/-- `PACKET_TYPES` -/
def PacketType (F : Type) : PacketKind → Type
  | .dialogue => Made DialoguePacket
  | .state_snapshot => Made StateSnapshotPacket
  | .gate2_challenge => Made (Gate2ChallengePacket F)
  | .gate2_response => Made (Gate2ResponsePacket F)
  | .session => Made SessionPacket
  | .control => Made (ControlPacket F)
  | .memory_candidate => Made MemoryCandidatePacket

section

variable {F : Type} [PyFloat F]

instance (kind : PacketKind) : WireType F (PacketType F kind) :=
  match kind with
  | .dialogue => inferInstanceAs (WireType F (Made DialoguePacket))
  | .state_snapshot => inferInstanceAs (WireType F (Made StateSnapshotPacket))
  | .gate2_challenge => inferInstanceAs (WireType F (Made (Gate2ChallengePacket F)))
  | .gate2_response => inferInstanceAs (WireType F (Made (Gate2ResponsePacket F)))
  | .session => inferInstanceAs (WireType F (Made SessionPacket))
  | .control => inferInstanceAs (WireType F (Made (ControlPacket F)))
  | .memory_candidate => inferInstanceAs (WireType F (Made MemoryCandidatePacket))

/-- A packet, with the type it is of. -/
structure Packet (F : Type) where
  kind : PacketKind
  packet : PacketType F kind

def kind_of (p : Packet F) : PacketKind := p.kind

def to_wire (p : Packet F) : Value F := WireType.to_wire p.packet

/-- Parses an object as the packet type for a kind. -/
def from_wire (repr : String → String) (kind : PacketKind) (v : Value F) : Reading (Packet F) :=
  (WireType.value repr (StrEnum.val kind) v).map (fun packet => ⟨kind, packet⟩)

/-- The object has no field that the kind does not know, none is missing, and
each is of the type it is annotated with, a number for a float. -/
def Fits (kind : PacketKind) (v : Value F) : Prop := WireType.Fits (PacketType F kind) v

/-- The only float is the expiry of a challenge. -/
def Packet.Finite : Packet F → Prop
  | ⟨.gate2_challenge, c⟩ => PyFloat.isFinite c.obj.expires_at = true
  | _ => True

/-- A challenge, an integer for its expiry turned into a float. -/
def floatedExpiry : Value F → Value F
  | .obj m => .obj (m.map (fun e => if e.1 = "expires_at" then (e.1, floated e.2) else e))
  | v => v

/-- What an object of this kind is written as once it has been read. -/
def normal : PacketKind → Value F → Value F
  | .gate2_challenge, v => floatedExpiry v
  | _, v => v

theorem floats_kind {kind : PacketKind} (h : kind ≠ .gate2_challenge) :
    WireType.floats F (PacketType F kind) = false := by
  cases kind with
  | gate2_challenge => exact absurd rfl h
  | _ => rfl

theorem finite_iff (p : Packet F) : WireType.Finite F p.packet ↔ p.Finite := by
  obtain ⟨kind, packet⟩ := p
  by_cases h : kind = .gate2_challenge
  · subst h
    have hplain := (WireType.plain (F := F) (α := Made TargetAction) rfl).1 packet.obj.target_action
    change (fields F (Gate2ChallengePacket F)).Finite (Dataclass.args packet.obj) ↔ _
    exact ⟨fun hfin => hfin.2.2.2.2.2.2.1,
      fun hfin => ⟨trivial, hplain, trivial, trivial, trivial, trivial, hfin, trivial⟩⟩
  · refine iff_of_true ((WireType.plain (floats_kind h)).1 packet) ?_
    cases kind with
    | gate2_challenge => exact absurd rfl h
    | _ => trivial

theorem normalAt_challenge {m : List (String × Value F)} {room : Nat}
    (hwf : (Value.obj m).WF (fun _ => True) (room + 1))
    (hin : (fields F (Gate2ChallengePacket F)).FitIn m) {e : String × Value F} (he : e ∈ m) :
    (e.1, (fields F (Gate2ChallengePacket F)).normalAt e.1 e.2) =
      if e.1 = "expires_at" then (e.1, floated e.2) else e := by
  obtain ⟨k, v⟩ := e
  have hget := objGet_of_mem hwf.1 he
  obtain ⟨-, ⟨w, hw, hfit⟩, -⟩ := hin
  have haction : k = "target_action" → WireType.normal (F := F) (Made TargetAction) v = v := by
    rintro rfl
    obtain rfl := Option.some.inj (hw.symm.trans hget)
    exact (WireType.plain (F := F) (α := Made TargetAction) rfl).2 _ room (wf_member hwf _ _ hget) hfit
  simp only [fields, Dataclass.signature, Fields.normalAt]
  split_ifs with h1 h2 h3 h4 h5 h6 h7
  all_goals first | rfl | (subst_vars; simp_all)

theorem normal_kind {kind : PacketKind} {v : Value F} {room : Nat}
    (hwf : v.WF (fun _ => True) room) (hfits : Fits kind v) :
    WireType.normal (PacketType F kind) v = normal kind v := by
  by_cases h : kind = .gate2_challenge
  · subst h
    change FitsClass (Gate2ChallengePacket F) v at hfits
    obtain ⟨m, rfl, -, hin⟩ := hfits
    cases room with
    | zero => simp [Value.WF] at hwf
    | succ room =>
        change normalClass (Gate2ChallengePacket F) (.obj m) = floatedExpiry (.obj m)
        exact congrArg Value.obj (List.map_congr_left (fun e he => normalAt_challenge hwf hin he))
  · have hsame : normal kind v = v := by
      cases kind with
      | gate2_challenge => exact absurd rfl h
      | _ => rfl
    rw [hsame]
    exact (WireType.plain (floats_kind h)).2 v room hwf hfits

theorem from_wire_ok {repr : String → String} {kind : PacketKind} {v : Value F} {p : Packet F} :
    from_wire repr kind v = .ok p ↔
      ∃ packet, WireType.value repr (StrEnum.val kind) v = .ok packet ∧ ⟨kind, packet⟩ = p :=
  map_ok

theorem to_wire_challenge_wf {p : Packet F} (h : p.kind = .gate2_challenge) :
    (to_wire p).WF (fun _ => True) 3 := by
  obtain ⟨kind, c⟩ := p
  obtain rfl : kind = .gate2_challenge := h
  have haction : (WireType.to_wire c.obj.target_action : Value F).WF (fun _ => True) 2 := by
    refine wf_obj (fun e he => ?_)
    simp only [fields, Dataclass.signature, Dataclass.args, Fields.to_wires, List.mem_cons,
      List.not_mem_nil, or_false] at he
    rcases he with rfl | rfl | rfl | rfl | rfl | rfl
    all_goals trivial
  refine wf_obj (fun e he => ?_)
  simp only [fields, Dataclass.signature, Dataclass.args, Fields.to_wires, List.mem_cons,
    List.not_mem_nil, or_false] at he
  rcases he with rfl | rfl | rfl | rfl | rfl | rfl | rfl
  · trivial
  · exact haction
  all_goals trivial

/-- A packet is read back from its wire form exactly if it holds no infinite
or undefined time; an accepted object fits its kind, and is what the packet is
written as but for an integer in the place of a time. -/
theorem codec (repr : String → String) :
    (∀ p : Packet F, from_wire repr (kind_of p) (to_wire p) = .ok p ↔ p.Finite) ∧
    (∀ kind (v : Value F) room p, v.WF (fun _ => True) room → from_wire repr kind v = .ok p →
      kind_of p = kind ∧ Fits kind v ∧ p.Finite ∧ to_wire p = normal kind v) ∧
    (∀ kind (v : Value F) room p, v.WF (fun _ => True) room → from_wire repr kind v = .ok p →
      kind ≠ .gate2_challenge → to_wire p = v) := by
  have haccepted : ∀ kind (v : Value F) room p, v.WF (fun _ => True) room →
      from_wire repr kind v = .ok p →
      kind_of p = kind ∧ Fits kind v ∧ p.Finite ∧ to_wire p = normal kind v := by
    intro kind v room p hwf h
    obtain ⟨packet, hvalue, rfl⟩ := from_wire_ok.mp h
    obtain ⟨hfits, hfin, hwire⟩ := WireType.accepted hwf hvalue
    exact ⟨rfl, hfits, (finite_iff ⟨kind, packet⟩).mp hfin, hwire.trans (normal_kind hwf hfits)⟩
  refine ⟨fun p => ⟨fun h => ?_, fun h => ?_⟩, haccepted, fun kind v room p hwf h hne => ?_⟩
  · by_cases hkind : p.kind = .gate2_challenge
    · exact (haccepted _ _ 3 p (to_wire_challenge_wf hkind) h).2.2.1
    · exact (finite_iff p).mp ((WireType.plain (floats_kind hkind)).1 p.packet)
  · exact from_wire_ok.mpr ⟨p.packet, WireType.value_to_wire _ _ ((finite_iff p).mpr h), rfl⟩
  · rw [(haccepted kind v room p hwf h).2.2.2]
    cases kind with
    | gate2_challenge => exact absurd rfl hne
    | _ => rfl

end

/-! ## An expiry that is not kept -/

/-- The 53 most significant bits of a number, rounded to even. -/
def round53 (n : Nat) : Nat :=
  let s := 2 ^ (n.size - 53)
  let q := n / s
  let r := n % s
  if s < 2 * r ∨ (2 * r = s ∧ q % 2 = 1) then (q + 1) * s else q * s

/-- Whole numbers as doubles, and NaN. -/
@[reducible] def doubles : PyFloat (Option Int) :=
  { (inferInstance : PyFloat (Option Int)) with
    ofInt := fun n => some (some (n.sign * round53 n.natAbs)) }

def challenge (expires_at : Option Int) : Packet (Option Int) :=
  ⟨.gate2_challenge, ⟨⟨"ch1", ⟨⟨"click", "", "button", "Delete", "", true⟩, rfl⟩, .irreversible, "",
    "", "did:key:z6Mk", expires_at⟩, rfl⟩⟩

/-- The same challenge as it is received, with any value for its expiry. -/
def challengeObject (expires_at : Value (Option Int)) : Value (Option Int) :=
  .obj [("action_hash", .str ""), ("challenge_id", .str "ch1"), ("expires_at", expires_at),
    ("risk_explanation", .str ""), ("risk_level", .str "irreversible"),
    ("subject_did", .str "did:key:z6Mk"),
    ("target_action", .obj [("high_risk", .bool true), ("kind", .str "click"),
      ("target_id", .str ""), ("target_name", .str "Delete"), ("target_role", .str "button"),
      ("text", .str "")])]

/-- A challenge that never expires is refused, and one that expires at
`2 ^ 53 + 1` is read as one that expires at `2 ^ 53`. -/
theorem expiry_not_kept :
    @from_wire _ doubles id (kind_of (challenge none)) (@to_wire _ doubles (challenge none)) =
      .error (.protocolError "gate2_challenge.expires_at: expected a finite number") ∧
    @from_wire _ doubles id .gate2_challenge (challengeObject (.int (2 ^ 53 + 1))) =
      .ok (challenge (some (2 ^ 53))) ∧
    @to_wire _ doubles (challenge (some (2 ^ 53))) = challengeObject (.float (some (2 ^ 53))) ∧
    challengeObject (.float (some (2 ^ 53))) ≠ challengeObject (.int (2 ^ 53 + 1)) := by
  refine ⟨rfl, rfl, rfl, ?_⟩
  simp [challengeObject]

end Secdogie.Dialogue
