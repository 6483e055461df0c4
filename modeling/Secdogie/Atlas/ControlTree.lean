/-
# `Secdogie.Atlas.ControlTree` — the controls of a window, and how one is found

A snapshot of a window is a forest of controls.  A control is found by its names
and its role (`Find`), or by a point in its box (`HitTest`, which takes the
smallest box).  `FuseTree` marks the controls that a string found in the memory of
the process stands for, and adds one for each string that no control stands for.
-/
import Secdogie.Atlas.ProcessChain

namespace Secdogie.Atlas.Hybrid

inductive ControlRole where
  | Window | Pane | Button | TabItem | TreeItem | Edit | Text | MenuItem | ToolBar | Custom
deriving DecidableEq

structure Rect where
  x : ℤ := 0
  y : ℤ := 0
  w : ℤ := 0
  h : ℤ := 0
deriving DecidableEq

def RectValid (r : Rect) : Bool := decide (0 < r.w ∧ 0 < r.h)

def RectContains (r : Rect) (x y : ℤ) : Bool :=
  RectValid r && decide (r.x ≤ x ∧ r.y ≤ y ∧ x < r.x + r.w ∧ y < r.y + r.h)

/-- A control, without its children. -/
structure Control where
  id : String := ""
  role : ControlRole := .Custom
  name : Wide := []
  automation_id : Wide := []
  bounds : Rect := {}
  pid : Pid := 0
  hwnd : ℕ := 0
  enabled : Bool := true
deriving DecidableEq

inductive ControlNode where
  | mk (control : Control) (children : List ControlNode)

def ControlNode.control : ControlNode → Control
  | mk control _ => control

structure Selector where
  automation_id : Wide := []
  name : Wide := []
  role : ControlRole := .Custom
  has_role : Bool := false

/-! ## How a control is found -/

def foldChar (c : ℕ) : ℕ := if 65 ≤ c ∧ c ≤ 90 then c + 32 else c

def Ieq (a b : Wide) : Bool := decide (a.map foldChar = b.map foldChar)

/-- Blanks, and the blank of CJK texts. -/
def isBlank (c : ℕ) : Bool := decide (c = 32 ∨ c = 9 ∨ c = 0x3000)

def FoldTrim (s : Wide) : Wide :=
  (((s.dropWhile isBlank).reverse.dropWhile isBlank).reverse).map foldChar

def ContainsI (hay needle : Wide) : Bool :=
  let h := FoldTrim hay
  let n := FoldTrim needle
  if n = [] then false else if n.length = 1 then decide (h = n) else decide (n <:+: h)

def NameHit (n : Control) (q : Wide) : Bool :=
  Ieq n.name q || Ieq n.automation_id q || ContainsI n.name q || ContainsI n.automation_id q

def NodeMatches (n : Control) (s : Selector) : Bool :=
  if s.automation_id = [] ∧ s.name = [] ∧ s.has_role = false then false
  else if s.automation_id ≠ [] ∧ Ieq n.automation_id s.automation_id = false ∧
      ContainsI n.automation_id s.automation_id = false ∧
        ContainsI n.name s.automation_id = false then false
  else if s.name ≠ [] ∧ NameHit n s.name = false then false
  else if s.has_role = true ∧ n.role ≠ s.role then false
  else true

mutual

/-- `Flatten`, of one root -/
def flattenNode : ControlNode → List ControlNode
  | .mk c children => .mk c children :: Flatten children

def Flatten : List ControlNode → List ControlNode
  | [] => []
  | n :: ns => flattenNode n ++ Flatten ns

end

def Find (roots : List ControlNode) (s : Selector) : Option ControlNode :=
  (Flatten roots).find? fun n => NodeMatches n.control s

/-- The best hit so far, with its area and its depth. -/
abbrev BestHit := Option (ControlNode × ℤ × ℕ)

def betterHit (x y : ℤ) (depth : ℕ) (best : BestHit) (n : ControlNode) : BestHit :=
  if RectContains n.control.bounds x y then
    let area := n.control.bounds.w * n.control.bounds.h
    match best with
    | none => some (n, area, depth)
    | some (_, best_area, best_depth) =>
        if area < best_area ∨ (area = best_area ∧ depth > best_depth) then some (n, area, depth)
        else best
  else best

mutual

def hitWalk (x y : ℤ) (depth : ℕ) (best : BestHit) : ControlNode → BestHit
  | .mk c children => hitRoots x y (depth + 1) (betterHit x y depth best (.mk c children)) children

def hitRoots (x y : ℤ) (depth : ℕ) (best : BestHit) : List ControlNode → BestHit
  | [] => best
  | n :: ns => hitRoots x y depth (hitWalk x y depth best n) ns

end

def HitTest (roots : List ControlNode) (x y : ℤ) : Option ControlNode :=
  (hitRoots x y 0 none roots).map Prod.fst

/-! ## What is found in memory -/

structure MemoryHit where
  address : ℕ
  text : Wide
  pid : Pid

def MemoryHitAsControl (hit : MemoryHit) : ControlNode :=
  .mk { id := "mem:" ++ String.ofList (Nat.toDigits 16 hit.address), role := .Text,
        name := hit.text, pid := hit.pid } []

inductive HybridSource where
  | Uia | Memory | Fused
deriving DecidableEq

/-- A control with where it is known from, and the address of its text. -/
inductive HybridNode where
  | mk (source : HybridSource) (address : ℕ) (control : Control) (children : List HybridNode)

mutual

def FromUia : ControlNode → HybridNode
  | .mk c children => .mk .Uia 0 c (fromUiaAll children)

def fromUiaAll : List ControlNode → List HybridNode
  | [] => []
  | n :: ns => FromUia n :: fromUiaAll ns

end

/-- The first hit that is not used and has the name of the control. -/
def claimHit (hits : List MemoryHit) (used : List Bool) (c : Control) : Option ℕ :=
  (List.range hits.length).find? fun i =>
    !(used.getD i true) &&
      (hits[i]?.any fun hit =>
        (decide (c.name ≠ []) && Ieq c.name hit.text) ||
          (decide (c.automation_id ≠ []) && Ieq c.automation_id hit.text))

mutual

/-- The fusion of a node, then of its children, with the hits that are used. -/
def fuseNode (hits : List MemoryHit) (used : List Bool) : HybridNode → HybridNode × List Bool
  | .mk source address c children =>
      match claimHit hits used c with
      | some i =>
          let (children, used) := fuseAll hits (used.set i true) children
          (.mk .Fused ((hits[i]?.map (·.address)).getD 0) c children, used)
      | none =>
          let (children, used) := fuseAll hits used children
          (.mk source address c children, used)

def fuseAll (hits : List MemoryHit) (used : List Bool) :
    List HybridNode → List HybridNode × List Bool
  | [] => ([], used)
  | n :: ns =>
      let (n, used) := fuseNode hits used n
      let (ns, used) := fuseAll hits used ns
      (n :: ns, used)

end

/-- The hits that no control stands for. -/
def unused (hits : List MemoryHit) (used : List Bool) : List MemoryHit :=
  ((hits.zip used).filter fun p => !p.2).map Prod.fst

def memoryNode (hit : MemoryHit) : HybridNode :=
  .mk .Memory hit.address (MemoryHitAsControl hit).control []

def FuseTree (uia : List ControlNode) (hits : List MemoryHit) (max_memory_only : ℕ) :
    List HybridNode :=
  let (roots, used) := fuseAll hits (List.replicate hits.length false) (fromUiaAll uia)
  roots ++ ((unused hits used).take max_memory_only).map memoryNode

mutual

def asControl : HybridNode → ControlNode
  | .mk _ _ c children => .mk c (HybridAsControls children)

def HybridAsControls : List HybridNode → List ControlNode
  | [] => []
  | n :: ns => asControl n :: HybridAsControls ns

end

/-! ## What is said of them -/

theorem Find_some {roots : List ControlNode} {s : Selector} {n : ControlNode}
    (h : Find roots s = some n) : n ∈ Flatten roots ∧ NodeMatches n.control s = true := by
  rw [Find] at h
  have hmatches := List.find?_some h
  exact ⟨List.mem_of_find?_eq_some h, hmatches⟩

/-- What a hit is: a node of some list, with the point in its box. -/
def HitOf (x y : ℤ) (nodes : List ControlNode) (best : BestHit) : Prop :=
  ∀ hit, best = some hit → hit.1 ∈ nodes ∧ RectContains hit.1.control.bounds x y = true

theorem HitOf.mono {x y : ℤ} {nodes nodes' : List ControlNode} {best : BestHit}
    (h : HitOf x y nodes best) (hsub : nodes ⊆ nodes') : HitOf x y nodes' best :=
  fun hit heq => ⟨hsub (h hit heq).1, (h hit heq).2⟩

theorem betterHit_of {x y : ℤ} {depth : ℕ} {nodes : List ControlNode} {best : BestHit}
    {n : ControlNode} (h : HitOf x y nodes best) (hn : n ∈ nodes) :
    HitOf x y nodes (betterHit x y depth best n) := by
  rw [betterHit]
  split
  · next hcontains =>
      dsimp only
      split
      · rintro hit heq
        obtain rfl := Option.some.inj heq
        exact ⟨hn, hcontains⟩
      · split
        · rintro hit heq
          obtain rfl := Option.some.inj heq
          exact ⟨hn, hcontains⟩
        · exact h
  · exact h

mutual

theorem hitWalk_of {x y : ℤ} : ∀ (n : ControlNode) (depth : ℕ) (nodes : List ControlNode)
    (best : BestHit), HitOf x y nodes best → flattenNode n ⊆ nodes →
      HitOf x y nodes (hitWalk x y depth best n)
  | .mk c children, depth, nodes, best, h, hsub => by
      rw [hitWalk]
      rw [flattenNode, List.cons_subset] at hsub
      exact hitRoots_of children (depth + 1) nodes _ (betterHit_of h hsub.1) hsub.2

theorem hitRoots_of {x y : ℤ} : ∀ (ns : List ControlNode) (depth : ℕ) (nodes : List ControlNode)
    (best : BestHit), HitOf x y nodes best → Flatten ns ⊆ nodes →
      HitOf x y nodes (hitRoots x y depth best ns)
  | [], _, _, _, h, _ => by
      rw [hitRoots]
      exact h
  | n :: ns, depth, nodes, best, h, hsub => by
      rw [hitRoots]
      rw [Flatten, List.append_subset] at hsub
      exact hitRoots_of ns depth nodes _ (hitWalk_of n depth nodes best h hsub.1) hsub.2

end

theorem HitTest_some {roots : List ControlNode} {x y : ℤ} {n : ControlNode}
    (h : HitTest roots x y = some n) :
    n ∈ Flatten roots ∧ RectContains n.control.bounds x y = true := by
  obtain ⟨hit, heq, rfl⟩ := Option.map_eq_some_iff.mp h
  exact hitRoots_of roots 0 (Flatten roots) none (fun _ hnone => nomatch hnone)
    (List.Subset.refl _) hit heq

mutual

theorem asControl_fuse (hits : List MemoryHit) : ∀ (n : ControlNode) (used : List Bool),
    asControl (fuseNode hits used (FromUia n)).1 = n
  | .mk c children, used => by
      rw [FromUia, fuseNode]
      split
      · exact congrArg (ControlNode.mk c) (asControls_fuse hits children _)
      · exact congrArg (ControlNode.mk c) (asControls_fuse hits children used)

/-- Fusing leaves the controls as they are. -/
theorem asControls_fuse (hits : List MemoryHit) : ∀ (ns : List ControlNode) (used : List Bool),
    HybridAsControls (fuseAll hits used (fromUiaAll ns)).1 = ns
  | [], _ => rfl
  | n :: ns, used =>
      congrArg₂ List.cons (asControl_fuse hits n used) (asControls_fuse hits ns _)

end

theorem HybridAsControls_append : ∀ (ns ms : List HybridNode),
    HybridAsControls (ns ++ ms) = HybridAsControls ns ++ HybridAsControls ms
  | [], _ => rfl
  | n :: ns, ms => congrArg (asControl n :: ·) (HybridAsControls_append ns ms)

/-- The tree of a fusion: the controls that there are, and after them one for each hit
that none of them stands for. -/
theorem HybridAsControls_FuseTree (uia : List ControlNode) (hits : List MemoryHit) (n : ℕ) :
    ∃ rest ⊆ hits,
      HybridAsControls (FuseTree uia hits n) = uia ++ rest.map MemoryHitAsControl := by
  refine ⟨(unused hits (fuseAll hits (List.replicate hits.length false) (fromUiaAll uia)).2).take n,
    ?_, ?_⟩
  · intro hit hhit
    obtain ⟨p, hp, rfl⟩ := List.mem_map.mp (List.mem_of_mem_take hhit)
    exact (List.of_mem_zip (List.mem_of_mem_filter hp)).1
  · rw [FuseTree, HybridAsControls_append, asControls_fuse]
    generalize (unused hits _).take n = rest
    induction rest with
    | nil => rfl
    | cons hit rest ih =>
        rw [List.map_cons, List.map_cons, HybridAsControls]
        exact congrArg (uia ++ ·) (congrArg (MemoryHitAsControl hit :: ·)
          (List.append_cancel_left ih))

end Secdogie.Atlas.Hybrid
