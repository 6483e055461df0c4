/-
# `Secdogie.Agent.Adapter` — the tree of a window, from the list of its elements

A provider lists the elements of a window in depth-first order, each with its
depth in the walk.  `build_nodes` drops the placeholders among them and finds
the parent of each of the others: the nearest one before it that is less deep,
or by the boxes where a depth is missing.  `build_tree` nests what it finds.
-/
import Secdogie.Agent.AxTree
import Secdogie.Agent.Action
import Secdogie.Lib.NearestLess

namespace Secdogie.Agent

structure Geometry where
  x : ℤ := 0
  y : ℤ := 0
  w : ℤ := 0
  h : ℤ := 0
deriving DecidableEq

def Geometry.valid (g : Geometry) : Bool := decide (0 < g.w ∧ 0 < g.h)

/-- A handle to a bitmap, without its pixels. -/
structure VisualReference where
  address : ℤ := 0
  width : ℤ := 0
  height : ℤ := 0
  bit_count : ℤ := 0
  compression : ℤ := 0
  source : String := "heap"
  content_hash : String := ""
  pixels_available : Bool := false
  stride : ℤ := 0
  pixel_format : String := ""
  size_bytes : ℤ := 0
  seqlock : ℤ := 0
deriving DecidableEq

/-- The size without any padding; zero where something is unknown. -/
def VisualReference.approx_bytes (ref : VisualReference) : ℤ :=
  if ref.width ≤ 0 ∨ ref.height ≤ 0 ∨ ref.bit_count ≤ 0 then 0
  else ref.width * ref.height * ((ref.bit_count + 7) / 8)

structure SemanticNode where
  role : String
  name : String
  automation_id : String
  bounds : Geometry
  enabled : Bool := true
  depth : ℤ := 0
  path_index : List ℕ := []
  /-- `-1` is `none`. -/
  parent_index : Option ℕ := none
  is_interactive : Bool := false
  visual_reference : Option VisualReference := none
  value : String := ""
  selected_text : String := ""
  table_cell : Option (ℤ × ℤ) := none
deriving DecidableEq

namespace Adapter

variable (casefold : String → String)

def normalize_role (role : String) : String :=
  casefold (String.ofList
    (role.toList.filter fun c => !(isSpace c.toNat || c == '_' || c == '-')))

def geometry_from_bounds (b : Bounds) : Geometry :=
  { x := b.left, y := b.top, w := b.right - b.left, h := b.bottom - b.top }

structure FilterPolicy where
  drop_placeholders : Bool := true
  /-- sets of roles, as `normalize_role` gives them -/
  interactive_roles : List String
  blind_roles : List String
  opaque_leaf_roles : List String
  dib_for_opaque_leaves : Bool := true

namespace FilterPolicy

variable (policy : FilterPolicy)

def is_placeholder (el : AxElement) : Bool :=
  !(geometry_from_bounds el.bounds).valid && decide (el.name = "") && decide (el.automation_id = "")

def is_interactive (role : String) : Bool :=
  decide (normalize_role casefold role ∈ policy.interactive_roles)

/-- The content of the node is not known to the tree. -/
def is_blind (node : SemanticNode) (has_children : Bool) : Bool :=
  node.bounds.valid &&
    (decide (normalize_role casefold node.role ∈ policy.blind_roles) ||
      (policy.dib_for_opaque_leaves &&
        decide (normalize_role casefold node.role ∈ policy.opaque_leaf_roles) && !has_children &&
        decide (node.name = "") && decide (node.automation_id = "")))

/-- Whether the element stays. -/
def keeps (el : AxElement) : Bool := !(policy.drop_placeholders && is_placeholder el)

end FilterPolicy

def semantic_node_from (el : AxElement) : SemanticNode where
  role := el.role
  name := el.name
  automation_id := el.automation_id
  bounds := geometry_from_bounds el.bounds
  value := el.value
  selected_text := el.selected_text
  table_cell := el.table_cell

def _contains (outer inner : Geometry) : Bool :=
  decide (outer.x ≤ inner.x ∧ outer.y ≤ inner.y ∧ inner.x + inner.w ≤ outer.x + outer.w ∧
    inner.y + inner.h ≤ outer.y + outer.h)

def _parents_from_depth (elements : List AxElement) : List (Option ℕ) :=
  nearestLess (elements.map AxElement.depth)

/-- The loop over the boxes, from the place `i` on. -/
def parentsContaining (i : ℕ) (stack : List (ℕ × Geometry)) : List Geometry → List (Option ℕ)
  | [] => []
  | box :: boxes =>
      if box.valid = false then
        stack.head?.map Prod.fst :: parentsContaining (i + 1) stack boxes
      else
        let containing := stack.dropWhile fun s => !_contains s.2 box
        containing.head?.map Prod.fst :: parentsContaining (i + 1) ((i, box) :: containing) boxes

def _parents_from_containment (elements : List AxElement) : List (Option ℕ) :=
  parentsContaining 0 [] (elements.map fun el => geometry_from_bounds el.bounds)

/-- The loop over the kept elements, with the children counted for each parent. -/
def buildFrom (policy : FilterPolicy) (nodes : List SemanticNode) (child_counts : Option ℕ → ℕ) :
    List (AxElement × Option ℕ) → List SemanticNode
  | [] => nodes
  | (el, parent) :: rest =>
      let ordinal := child_counts parent
      let path := match parent with
        | none => [ordinal]
        | some p => ((nodes[p]?).elim [] SemanticNode.path_index) ++ [ordinal]
      buildFrom policy
        (nodes ++ [{ semantic_node_from el with
          depth := path.length - 1
          path_index := path
          parent_index := parent
          is_interactive := policy.is_interactive casefold el.role }])
        (Function.update child_counts parent (ordinal + 1)) rest

/-- The nodes, how many elements were pruned, and whether the depths were inferred. -/
def build_nodes (elements : List AxElement) (policy : FilterPolicy) :
    List SemanticNode × ℕ × Bool :=
  let kept := elements.filter policy.keeps
  let pruned := elements.length - kept.length
  let depth_inferred := kept.any fun el => decide (el.depth < 0)
  let parents := if depth_inferred then _parents_from_containment kept else _parents_from_depth kept
  (buildFrom casefold policy [] (fun _ => 0) (kept.zip parents), pruned, depth_inferred)

/-! ## The tree -/

inductive UiTreeNode where
  | mk (index : ℕ) (node : SemanticNode) (children : List UiTreeNode)

namespace UiTreeNode

/-- The places of the nodes, in the order of `walk`. -/
def walk : UiTreeNode → List ℕ
  | mk index _ children => index :: children.flatMap walk

end UiTreeNode

/-- `children.get(p, ())` -/
def childrenOf (nodes : List SemanticNode) (p : Option ℕ) : List ℕ :=
  (List.range nodes.length).filter fun i => decide ((nodes[i]?).map SemanticNode.parent_index = some p)

/-- `make`, at most so deep. -/
def make (nodes : List SemanticNode) : ℕ → ℕ → Option UiTreeNode
  | 0, _ => none
  | deep + 1, i => do
      let node ← nodes[i]?
      let children ← (childrenOf nodes (some i)).mapM (make nodes deep)
      return .mk i node children

/-- `build_tree`, with recursion at most so deep. -/
def build_tree (nodes : List SemanticNode) (deep : ℕ) : Option (List UiTreeNode) :=
  (childrenOf nodes none).mapM (make nodes deep)

end Adapter

end Secdogie.Agent
