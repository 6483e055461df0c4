/-
# `Secdogie.Agent.Stitch` — framebuffers beside the nodes of a tree

A node whose content the tree does not know may have a framebuffer.  `_stitch_dib`
asks the provider for each such node and attaches what it gives, within a budget of
bytes for the whole observation.

A frame is read against what is left of the budget, and charged without the padding
of its rows, so that what is left may be read again and again.  `stitched_iff` says
when the budget holds all the same.
-/
import Secdogie.Agent.Dib

namespace Secdogie.Agent.Adapter

/-- What the provider gives for a node; `raised` has the text of the error. -/
inductive Got where
  | raised (text : String)
  | nothing
  | frame (fb : DIBFrameBuffer)
  | reference (ref : VisualReference)
  | other

structure Stats where
  dib_requested : ℕ := 0
  dib_attached : ℕ := 0
  dib_bytes : ℤ := 0
  dib_skipped_budget : ℕ := 0
  dib_skipped_tearing : ℕ := 0
  dib_errors : List String := []
deriving DecidableEq

def Stats.failed (stats : Stats) (line : String) : Stats :=
  { stats with dib_errors := stats.dib_errors ++ [line] }

/-- What an adapter is made with, as far as framebuffers are concerned. -/
structure Stitcher where
  casefold : String → String
  upper : String → String
  repr : String → String
  sha256 : Pixels → String
  filter_policy : FilterPolicy
  dib_budget_bytes : ℤ
  dib_retries : ℤ

namespace Stitcher

variable (S : Stitcher)

def _resolve_reference (got : Got) (place : String) (stats : Stats) :
    Option VisualReference × Stats :=
  match got with
  | .frame fb =>
      let remaining := S.dib_budget_bytes - stats.dib_bytes
      match fb.read S.upper S.repr remaining S.dib_retries with
      | .ok (data, seq) => (some (fb.to_reference S.upper S.sha256 data seq), stats)
      | .error (.Tear text) =>
          (none, { stats with dib_skipped_tearing := stats.dib_skipped_tearing + 1 }.failed
            (place ++ ": torn frame: " ++ text))
      | .error (.Budget text) =>
          (none, { stats with dib_skipped_budget := stats.dib_skipped_budget + 1 }.failed
            (place ++ ": " ++ text))
      | .error e => (none, stats.failed (place ++ ": " ++ e.text))
  | .reference ref => (some ref, stats)
  | _ => (none, stats.failed (place ++ ": not a VisualReference or DIBFrameBuffer"))

/-- Where a node stands in the tree, for the errors. -/
def whereIs (node : SemanticNode) : String :=
  ".".intercalate (node.path_index.map toString) ++ " " ++ node.role

/-- What the provider gave is charged, if the budget allows. -/
def charge (got : Option VisualReference × Stats) : Option VisualReference × Stats :=
  match got with
  | (none, stats) => (none, stats)
  | (some ref, stats) =>
      if stats.dib_bytes + ref.approx_bytes > S.dib_budget_bytes then
        (none, { stats with dib_skipped_budget := stats.dib_skipped_budget + 1 })
      else
        (some ref, { stats with dib_bytes := stats.dib_bytes + ref.approx_bytes,
                                dib_attached := stats.dib_attached + 1 })

/-- What the loop does at a node, which has children or not. -/
def stitchOne (has_children : Bool) (node : SemanticNode) (got : Got) (stats : Stats) :
    Option VisualReference × Stats :=
  if S.filter_policy.is_blind S.casefold node has_children = false then (none, stats)
  else
    let stats := { stats with dib_requested := stats.dib_requested + 1 }
    match got with
    | .raised text => (none, stats.failed (whereIs node ++ ": " ++ text))
    | .nothing => (none, stats)
    | got => S.charge (S._resolve_reference got (whereIs node) stats)

/-- `i in parents` -/
def isParent (nodes : List SemanticNode) (i : ℕ) : Bool :=
  nodes.any fun n => decide (n.parent_index = some i)

/-- A node that the loop comes to: whether it has children, and what the provider gives. -/
structure Visit where
  has_children : Bool
  node : SemanticNode
  got : Got

/-- What the loop comes to, in order. -/
def visits (nodes : List SemanticNode) (inspect : ℕ → SemanticNode → Got) : List Visit :=
  nodes.mapIdx fun i node => ⟨isParent nodes i, node, inspect i node⟩

/-- The loop: what is attached to each node. -/
def stitchLoop : Stats → List Visit → List (Option VisualReference) × Stats
  | stats, [] => ([], stats)
  | stats, v :: vs =>
      let (ref, stats) := S.stitchOne v.has_children v.node v.got stats
      let (refs, stats) := stitchLoop stats vs
      (ref :: refs, stats)

def attach (node : SemanticNode) : Option VisualReference → SemanticNode
  | some ref => { node with visual_reference := some ref }
  | none => node

/-- `_stitch_dib`; without a provider nothing is asked for. -/
def _stitch_dib (nodes : List SemanticNode) (inspect : Option (ℕ → SemanticNode → Got)) :
    List SemanticNode × Stats :=
  match inspect with
  | none => (nodes, {})
  | some inspect =>
      let (refs, stats) := S.stitchLoop {} (visits nodes inspect)
      (List.zipWith attach nodes refs, stats)

/-! ## What is attached -/

/-- What the loop attaches, node by node. -/
def attached (nodes : List SemanticNode) (inspect : Option (ℕ → SemanticNode → Got)) :
    List (Option VisualReference) :=
  match inspect with
  | none => nodes.map fun _ => none
  | some inspect => (S.stitchLoop {} (visits nodes inspect)).1

/-- What a reference takes: the bytes read for it where they are known, padding
included, and its nominal size otherwise. -/
def size (ref : VisualReference) : ℤ :=
  if 0 < ref.size_bytes then ref.size_bytes else ref.approx_bytes

def sizes (refs : List (Option VisualReference)) : ℤ := (refs.map fun ref => ref.elim 0 size).sum

/-- What a visit offers, whatever is left of the budget: a reference, and whether it is
of a frame that is read for it. -/
def offered (v : Visit) : Option (Bool × VisualReference) :=
  if S.filter_policy.is_blind S.casefold v.node v.has_children = false then none
  else
    match v.got with
    | .frame fb =>
        match fb.read S.upper S.repr fb.frame_bytes S.dib_retries with
        | .ok (data, seq) => some (true, fb.to_reference S.upper S.sha256 data seq)
        | .error _ => none
    | .reference ref => some (false, ref)
    | _ => none

/-- What is offered goes into what is left: a frame with its padding, to be read, and
anything without it, to be charged. -/
def Goes (left : ℤ) (o : Bool × VisualReference) : Prop :=
  (o.1 = true → size o.2 ≤ left) ∧ o.2.approx_bytes ≤ left

instance (left : ℤ) (o : Bool × VisualReference) : Decidable (Goes left o) :=
  inferInstanceAs (Decidable (_ ∧ _))

/-- What is attached of what is offered, with so much left. -/
def takes : ℤ → List (Option (Bool × VisualReference)) → List (Option VisualReference)
  | _, [] => []
  | left, none :: offers => none :: takes left offers
  | left, some o :: offers =>
      if Goes left o then some o.2 :: takes (left - o.2.approx_bytes) offers
      else none :: takes left offers

/-- What goes into what the frames before it leave, counted without their padding, goes
into what they leave counted with it. -/
def Fits : ℤ → ℤ → List (Option (Bool × VisualReference)) → Prop
  | _, _, [] => True
  | left, room, none :: offers => Fits left room offers
  | left, room, some o :: offers =>
      if Goes left o then
        size o.2 ≤ room ∧ Fits (left - o.2.approx_bytes) (room - size o.2) offers
      else Fits left room offers

/-- What is offered for a list of nodes. -/
def offers (nodes : List SemanticNode) (inspect : Option (ℕ → SemanticNode → Got)) :
    List (Option (Bool × VisualReference)) :=
  match inspect with
  | none => nodes.map fun _ => none
  | some inspect => (visits nodes inspect).map S.offered

theorem approx_nonneg (ref : VisualReference) : 0 ≤ ref.approx_bytes := by
  rw [VisualReference.approx_bytes]
  split
  · exact le_refl _
  · next h =>
      rw [not_or, not_or, not_le, not_le, not_le] at h
      exact mul_nonneg (mul_pos h.1 h.2.1).le (by omega)

theorem size_nonneg (ref : VisualReference) : 0 ≤ size ref := by
  rw [size]
  split
  · next h => exact h.le
  · exact approx_nonneg ref

theorem sizes_nonneg (refs : List (Option VisualReference)) : 0 ≤ sizes refs := by
  refine List.sum_nonneg fun n hn => ?_
  obtain ⟨ref, -, rfl⟩ := List.mem_map.mp hn
  cases ref with
  | none => exact le_refl _
  | some ref => exact size_nonneg ref

theorem sizes_cons (ref : Option VisualReference) (refs : List (Option VisualReference)) :
    sizes (ref :: refs) = ref.elim 0 size + sizes refs := List.sum_cons

/-- What is attached stays within the room just where what goes in fits. -/
theorem sizes_takes_iff : ∀ (os : List (Option (Bool × VisualReference))) (left room : ℤ),
    0 ≤ room → (sizes (takes left os) ≤ room ↔ Fits left room os) := by
  intro os
  induction os with
  | nil => exact fun left room hroom => iff_of_true hroom trivial
  | cons o os ih =>
      intro left room hroom
      cases o with
      | none =>
          rw [takes, Fits, sizes_cons, Option.elim_none, zero_add]
          exact ih left room hroom
      | some o =>
          rw [takes, Fits]
          by_cases hgoes : Goes left o
          · rw [if_pos hgoes, if_pos hgoes, sizes_cons, Option.elim_some]
            constructor
            · intro h
              have hrest := sizes_nonneg (takes (left - o.2.approx_bytes) os)
              exact ⟨by omega, (ih _ _ (by omega)).mp (by omega)⟩
            · rintro ⟨hsize, hfits⟩
              have hrest := (ih _ _ (by omega)).mpr hfits
              omega
          · rw [if_neg hgoes, if_neg hgoes, sizes_cons, Option.elim_none, zero_add]
            exact ih left room hroom

/-- Frames without padding always fit. -/
theorem fits_of_unpadded : ∀ (os : List (Option (Bool × VisualReference))) (left room : ℤ),
    left ≤ room → (∀ o, some o ∈ os → size o.2 ≤ o.2.approx_bytes) → Fits left room os := by
  intro os
  induction os with
  | nil => exact fun _ _ _ _ => trivial
  | cons o os ih =>
      intro left room hle h
      have hrest : ∀ o, some o ∈ os → size o.2 ≤ o.2.approx_bytes :=
        fun o ho => h o (List.mem_cons_of_mem _ ho)
      cases o with
      | none => exact ih left room hle hrest
      | some o =>
          have hsize := h o List.mem_cons_self
          rw [Fits]
          split
          · next hgoes =>
              have hcharge := hgoes.2
              exact ⟨by omega, ih _ _ (by omega) hrest⟩
          · exact ih left room hle hrest

/-- What is not attached may as well not be offered. -/
theorem takes_set_none : ∀ (os : List (Option (Bool × VisualReference))) (left : ℤ) (i : ℕ),
    (takes left os)[i]? = some none → takes left (os.set i none) = takes left os := by
  intro os
  induction os with
  | nil => exact fun _ _ _ => rfl
  | cons o os ih =>
      intro left i h
      cases o with
      | none =>
          cases i with
          | zero => rfl
          | succ i =>
              rw [takes, List.getElem?_cons_succ] at h
              rw [List.set_cons_succ, takes, takes, ih left i h]
      | some o =>
          rw [takes] at h ⊢
          by_cases hgoes : Goes left o
          · rw [if_pos hgoes] at h ⊢
            cases i with
            | zero => exact nomatch h
            | succ i =>
                rw [List.getElem?_cons_succ] at h
                rw [List.set_cons_succ, takes, if_pos hgoes, ih _ i h]
          · rw [if_neg hgoes] at h ⊢
            cases i with
            | zero => rfl
            | succ i =>
                rw [List.getElem?_cons_succ] at h
                rw [List.set_cons_succ, takes, if_neg hgoes, ih _ i h]

/-! ## The loop attaches what is taken -/

variable {S}

/-- What the loop attaches at a node, given what is left. -/
def takeOne (left : ℤ) (o : Option (Bool × VisualReference)) : Option VisualReference :=
  match o with
  | none => none
  | some o => if Goes left o then some o.2 else none

theorem takes_cons (left : ℤ) (o : Option (Bool × VisualReference))
    (os : List (Option (Bool × VisualReference))) :
    takes left (o :: os) =
      takeOne left o :: takes (left - (takeOne left o).elim 0 (·.approx_bytes)) os := by
  cases o with
  | none => rw [takes, takeOne, Option.elim_none, sub_zero]
  | some o =>
      rw [takes, takeOne]
      split
      · rw [Option.elim_some]
      · rw [Option.elim_none, sub_zero]

/-- A frame that is read against what is left. -/
theorem read_left {fb : DIBFrameBuffer} {left : ℤ} {got : Pixels × ℤ} :
    fb.read S.upper S.repr left S.dib_retries = .ok got ↔
      fb.read S.upper S.repr fb.frame_bytes S.dib_retries = .ok got ∧
        size (fb.to_reference S.upper S.sha256 got.1 got.2) ≤ left := by
  rw [DIBFrameBuffer.read_cap left fb.frame_bytes S.dib_retries (le_refl _), and_comm]
  refine and_congr_right fun h => ?_
  obtain ⟨⟨bpp, hvalid⟩, -⟩ := DIBFrameBuffer.read_ok (s := got.2) h
  have hlength : (got.1.length : ℤ) = fb.frame_bytes := DIBFrameBuffer.read_length (s := got.2) h
  have hsize : size (fb.to_reference S.upper S.sha256 got.1 got.2) = fb.frame_bytes := by
    have hpos : 0 < (fb.to_reference S.upper S.sha256 got.1 got.2).size_bytes :=
      lt_of_lt_of_eq hvalid.frame_pos hlength.symm
    rw [size, if_pos hpos]
    exact hlength
  rw [hsize]

/-- The frame, read or not. -/
theorem resolve_frame (fb : DIBFrameBuffer) (place : String) (stats : Stats) :
    ((S._resolve_reference (.frame fb) place stats).1 =
        match fb.read S.upper S.repr (S.dib_budget_bytes - stats.dib_bytes) S.dib_retries with
        | .ok (data, seq) => some (fb.to_reference S.upper S.sha256 data seq)
        | .error _ => none) ∧
      (S._resolve_reference (.frame fb) place stats).2.dib_bytes = stats.dib_bytes := by
  rw [_resolve_reference]
  cases fb.read S.upper S.repr (S.dib_budget_bytes - stats.dib_bytes) S.dib_retries with
  | ok got => exact ⟨rfl, rfl⟩
  | error e =>
      cases e with
      | Tear text => exact ⟨rfl, rfl⟩
      | Budget text => exact ⟨rfl, rfl⟩
      | Bounds text => exact ⟨rfl, rfl⟩
      | Format text => exact ⟨rfl, rfl⟩

theorem charge_eq (ref : VisualReference) (stats : Stats) {capped : Bool}
    (hcap : capped = true → size ref ≤ S.dib_budget_bytes - stats.dib_bytes) :
    (S.charge (some ref, stats)).1 =
        takeOne (S.dib_budget_bytes - stats.dib_bytes) (some (capped, ref)) ∧
      (S.charge (some ref, stats)).2.dib_bytes =
        stats.dib_bytes +
          (takeOne (S.dib_budget_bytes - stats.dib_bytes) (some (capped, ref))).elim 0
            (·.approx_bytes) := by
  rw [charge, takeOne]
  by_cases hover : stats.dib_bytes + ref.approx_bytes > S.dib_budget_bytes
  · have hnot : ¬ Goes (S.dib_budget_bytes - stats.dib_bytes) (capped, ref) := by
      rintro ⟨-, hle⟩
      dsimp only at hle
      omega
    rw [if_pos hover, if_neg hnot]
    exact ⟨rfl, (add_zero _).symm⟩
  · have hgoes : Goes (S.dib_budget_bytes - stats.dib_bytes) (capped, ref) :=
      ⟨hcap, by dsimp only; omega⟩
    rw [if_neg hover, if_pos hgoes]
    exact ⟨rfl, rfl⟩

/-- The step lemma: what the loop attaches at a node, and what it charges. -/
theorem stitchOne_eq (v : Visit) (stats : Stats) :
    (S.stitchOne v.has_children v.node v.got stats).1 =
        takeOne (S.dib_budget_bytes - stats.dib_bytes) (S.offered v) ∧
      (S.stitchOne v.has_children v.node v.got stats).2.dib_bytes =
        stats.dib_bytes +
          (takeOne (S.dib_budget_bytes - stats.dib_bytes) (S.offered v)).elim 0
            (·.approx_bytes) := by
  rw [stitchOne, offered]
  by_cases hblind : S.filter_policy.is_blind S.casefold v.node v.has_children = false
  · rw [if_pos hblind, if_pos hblind]
    exact ⟨rfl, (add_zero _).symm⟩
  · rw [if_neg hblind, if_neg hblind]
    cases v.got with
    | raised text => exact ⟨rfl, (add_zero _).symm⟩
    | nothing => exact ⟨rfl, (add_zero _).symm⟩
    | other => exact ⟨rfl, (add_zero _).symm⟩
    | reference ref =>
        exact charge_eq ref { stats with dib_requested := stats.dib_requested + 1 } nofun
    | frame fb =>
        dsimp only
        obtain ⟨href, hbytes⟩ := resolve_frame (S := S) fb (whereIs v.node)
          { stats with dib_requested := stats.dib_requested + 1 }
        generalize S._resolve_reference (.frame fb) (whereIs v.node)
          { stats with dib_requested := stats.dib_requested + 1 } = got at href hbytes ⊢
        obtain ⟨ref, stats'⟩ := got
        dsimp only at href hbytes
        rw [← hbytes] at href ⊢
        cases hread : fb.read S.upper S.repr fb.frame_bytes S.dib_retries with
        | error e =>
            have hnone : ref = none := by
              cases hleft : fb.read S.upper S.repr (S.dib_budget_bytes - stats'.dib_bytes)
                  S.dib_retries with
              | error e' => rw [href, hleft]
              | ok got => exact nomatch hread.symm.trans (read_left.mp hleft).1
            rw [hnone]
            exact ⟨rfl, (add_zero _).symm⟩
        | ok got =>
            cases hleft : fb.read S.upper S.repr (S.dib_budget_bytes - stats'.dib_bytes)
                S.dib_retries with
            | ok got' =>
                obtain ⟨hread', hsize⟩ := read_left.mp hleft
                obtain rfl := Except.ok.inj (hread.symm.trans hread')
                rw [href, hleft]
                exact charge_eq _ stats' fun _ => hsize
            | error e =>
                have hbig : ¬ Goes (S.dib_budget_bytes - stats'.dib_bytes)
                    (true, fb.to_reference S.upper S.sha256 got.1 got.2) := by
                  intro hgoes
                  exact nomatch hleft.symm.trans (read_left.mpr ⟨hread, hgoes.1 rfl⟩)
                rw [href, hleft, takeOne, if_neg hbig]
                exact ⟨rfl, (add_zero _).symm⟩

theorem stitchLoop_eq : ∀ (vs : List Visit) (stats : Stats),
    (S.stitchLoop stats vs).1 =
      takes (S.dib_budget_bytes - stats.dib_bytes) (vs.map S.offered) := by
  intro vs
  induction vs with
  | nil => exact fun _ => rfl
  | cons v vs ih =>
      intro stats
      obtain ⟨href, hbytes⟩ := stitchOne_eq (S := S) v stats
      rw [stitchLoop, List.map_cons, takes_cons, ← href]
      dsimp only
      rw [ih, hbytes, href, sub_sub]

theorem takes_none (left : ℤ) (n : ℕ) :
    takes left (List.replicate n none) = List.replicate n none := by
  induction n with
  | zero => rfl
  | succ n ih => rw [List.replicate_succ, takes, ih, List.replicate_succ]

theorem attached_eq (nodes : List SemanticNode) (inspect : Option (ℕ → SemanticNode → Got)) :
    S.attached nodes inspect = takes S.dib_budget_bytes (S.offers nodes inspect) := by
  cases inspect with
  | none =>
      rw [attached, offers, List.map_const', List.map_const', takes_none]
  | some inspect =>
      rw [attached, offers, stitchLoop_eq, sub_zero]

/-! ## What is said of an observation -/

/-- The provider, giving nothing for the node `i`. -/
def without (i : ℕ) (inspect : ℕ → SemanticNode → Got) : ℕ → SemanticNode → Got :=
  fun j node => if j = i then .nothing else inspect j node

variable (S)

/-- What is said of the frames that are stitched to the nodes. -/
structure Stitched (nodes : List SemanticNode) (inspect : Option (ℕ → SemanticNode → Got)) :
    Prop where
  /-- The nodes are those given, each with what is attached to it. -/
  shown : (S._stitch_dib nodes inspect).1 =
    List.zipWith attach nodes (S.attached nodes inspect)
  within : sizes (S.attached nodes inspect) ≤ S.dib_budget_bytes
  /-- Whatever is read beside a writer is a frame that the writer settled. -/
  tearfree : ∀ (fb : DIBFrameBuffer) (len M : ℕ) (σ : ℕ → Seqlock.State (Fin len) UInt8),
    fb.Beside σ M → ∀ (max_bytes retries : ℤ) (data : Pixels) (s : ℤ),
      fb.read S.upper S.repr max_bytes retries = .ok (data, s) →
        ∃ t, (σ t).Settled ∧ data = fb.frameIn (σ t) ∧ s = (σ t).sample M
  /-- So is what is attached. -/
  settled : ∀ f, inspect = some f → ∀ i node fb ref, nodes[i]? = some node →
    f i node = .frame fb → (S.attached nodes inspect)[i]? = some (some ref) →
      ∀ (len M : ℕ) (σ : ℕ → Seqlock.State (Fin len) UInt8), fb.Beside σ M →
        ∃ t, (σ t).Settled ∧
          ref = fb.to_reference S.upper S.sha256 (fb.frameIn (σ t)) ((σ t).sample M)
  /-- No copy leaves the region. -/
  inside : ∀ (fb : DIBFrameBuffer) (k : ℕ) (data : Pixels),
    fb._slice fb.frame_bytes k = .ok data →
      0 ≤ fb.offset ∧ ∃ buffer, fb._buffer = some buffer ∧
        fb.offset + fb.frame_bytes ≤ (buffer k).length ∧
          data = ((buffer k).drop fb.offset.toNat).take fb.frame_bytes.toNat
  /-- What is refused leaves its node and all the others as they are without it. -/
  refused : ∀ i, (S.attached nodes inspect)[i]? = some none →
    (S._stitch_dib nodes inspect).1[i]? = nodes[i]? ∧
      (S._stitch_dib nodes (inspect.map (without i))).1 = (S._stitch_dib nodes inspect).1

variable {S}

theorem visits_length (nodes : List SemanticNode) (inspect : ℕ → SemanticNode → Got) :
    (visits nodes inspect).length = nodes.length := List.length_mapIdx

theorem stitchLoop_length : ∀ (vs : List Visit) (stats : Stats),
    (S.stitchLoop stats vs).1.length = vs.length := by
  intro vs
  induction vs with
  | nil => exact fun _ => rfl
  | cons v vs ih => exact fun stats => congrArg (· + 1) (ih _)

theorem zipWith_attach_none (nodes : List SemanticNode) :
    List.zipWith attach nodes (nodes.map fun _ => none) = nodes := by
  induction nodes with
  | nil => rfl
  | cons node nodes ih => exact congrArg (node :: ·) ih

theorem stitch_shown (nodes : List SemanticNode) (inspect : Option (ℕ → SemanticNode → Got)) :
    (S._stitch_dib nodes inspect).1 = List.zipWith attach nodes (S.attached nodes inspect) := by
  cases inspect with
  | none => exact (zipWith_attach_none nodes).symm
  | some inspect => rfl

/-- What is not offered leaves what else is. -/
theorem offers_without (nodes : List SemanticNode) (inspect : ℕ → SemanticNode → Got) (i : ℕ) :
    S.offers nodes (some (without i inspect)) = (S.offers nodes (some inspect)).set i none := by
  refine List.ext_getElem? fun j => ?_
  rw [List.getElem?_set]
  simp only [offers, visits, List.getElem?_map, List.getElem?_mapIdx, List.length_map,
    List.length_mapIdx]
  by_cases hij : i = j
  · subst hij
    rw [if_pos rfl]
    cases hnode : nodes[i]? with
    | none => rw [if_neg (not_lt.mpr (List.getElem?_eq_none_iff.mp hnode))]; rfl
    | some node =>
        rw [if_pos (List.getElem?_eq_some_iff.mp hnode).1]
        simp [offered, without]
  · rw [if_neg hij]
    cases nodes[j]? with
    | none => rfl
    | some node =>
        have hne : ¬ j = i := fun h => hij h.symm
        simp [without, hne]

theorem takes_getElem? : ∀ (os : List (Option (Bool × VisualReference))) (left : ℤ) (i : ℕ)
    (ref : VisualReference), (takes left os)[i]? = some (some ref) →
      ∃ capped, os[i]? = some (some (capped, ref)) := by
  intro os
  induction os with
  | nil => exact fun _ _ _ h => nomatch h
  | cons o os ih =>
      intro left i ref h
      rw [takes_cons] at h
      cases i with
      | succ i => exact ih _ i ref h
      | zero =>
          rw [List.getElem?_cons_zero, Option.some_inj, takeOne.eq_def] at h
          cases o with
          | none => exact nomatch h
          | some o =>
              dsimp only at h
              split at h
              · exact ⟨o.1, congrArg (some ∘ some) (Prod.ext rfl (Option.some.inj h))⟩
              · exact nomatch h

/-- A frame that is attached was read. -/
theorem attached_read {nodes : List SemanticNode} {inspect : ℕ → SemanticNode → Got} {i : ℕ}
    {node : SemanticNode} {fb : DIBFrameBuffer} {ref : VisualReference}
    (hnode : nodes[i]? = some node) (hgot : inspect i node = .frame fb)
    (h : (S.attached nodes (some inspect))[i]? = some (some ref)) :
    ∃ data s, fb.read S.upper S.repr fb.frame_bytes S.dib_retries = .ok (data, s) ∧
      ref = fb.to_reference S.upper S.sha256 data s := by
  rw [attached_eq] at h
  obtain ⟨capped, hoffer⟩ := takes_getElem? _ _ _ _ h
  rw [offers, List.getElem?_map, visits, List.getElem?_mapIdx, hnode, Option.map_some,
    Option.map_some, Option.some_inj, offered, hgot] at hoffer
  split at hoffer
  · exact nomatch hoffer
  · dsimp only at hoffer
    cases hread : fb.read S.upper S.repr fb.frame_bytes S.dib_retries with
    | error e =>
        rw [hread] at hoffer
        exact nomatch hoffer
    | ok got =>
        rw [hread] at hoffer
        exact ⟨got.1, got.2, rfl, (Prod.mk.inj (Option.some.inj hoffer)).2.symm⟩

theorem attached_length (nodes : List SemanticNode)
    (inspect : Option (ℕ → SemanticNode → Got)) :
    (S.attached nodes inspect).length = nodes.length := by
  cases inspect with
  | none => exact List.length_map _
  | some inspect => exact (stitchLoop_length _ _).trans (visits_length nodes inspect)

/-- What holds of every observation. -/
theorem stitched_of_within {nodes : List SemanticNode}
    {inspect : Option (ℕ → SemanticNode → Got)}
    (hwithin : sizes (S.attached nodes inspect) ≤ S.dib_budget_bytes) :
    S.Stitched nodes inspect where
  shown := stitch_shown nodes inspect
  within := hwithin
  tearfree := fun fb len M σ hbeside max_bytes retries data s h =>
    DIBFrameBuffer.read_settled hbeside h
  settled := by
    rintro f rfl i node fb ref hnode hgot h len M σ hbeside
    obtain ⟨data, s, hread, rfl⟩ := attached_read hnode hgot h
    obtain ⟨t, hsettled, rfl, rfl⟩ := DIBFrameBuffer.read_settled hbeside hread
    exact ⟨t, hsettled, rfl⟩
  inside := fun fb k data h => DIBFrameBuffer.slice_ok h
  refused := by
    intro i h
    constructor
    · rw [stitch_shown, List.getElem?_zipWith, h]
      cases nodes[i]? with
      | none => rfl
      | some node => rfl
    · rw [stitch_shown, stitch_shown]
      cases inspect with
      | none => rfl
      | some inspect =>
          rw [attached_eq] at h
          rw [Option.map_some, attached_eq, attached_eq, offers_without, takes_set_none _ _ _ h]

/-- What is attached is within the budget, padding included, just where what fits
without its padding fits with it. -/
theorem within_budget_iff (nodes : List SemanticNode)
    (inspect : Option (ℕ → SemanticNode → Got)) :
    sizes (S.attached nodes inspect) ≤ S.dib_budget_bytes ↔
      0 ≤ S.dib_budget_bytes ∧
        Fits S.dib_budget_bytes S.dib_budget_bytes (S.offers nodes inspect) := by
  rw [attached_eq]
  constructor
  · intro h
    have hbudget := (sizes_nonneg _).trans h
    exact ⟨hbudget, (sizes_takes_iff _ _ _ hbudget).mp h⟩
  · rintro ⟨hbudget, hfits⟩
    exact (sizes_takes_iff _ _ _ hbudget).mpr hfits

/-- Without any padding, it is so. -/
theorem stitched_of_unpadded {nodes : List SemanticNode}
    {inspect : Option (ℕ → SemanticNode → Got)} (hbudget : 0 ≤ S.dib_budget_bytes)
    (h : ∀ o, some o ∈ S.offers nodes inspect → size o.2 ≤ o.2.approx_bytes) :
    S.Stitched nodes inspect :=
  stitched_of_within ((within_budget_iff nodes inspect).mpr
    ⟨hbudget, fits_of_unpadded _ _ _ (le_refl _) h⟩)

/-- Every observation is as it is said to be, just where what goes into the budget
without its padding goes into it with it. -/
theorem stitched_iff (S : Stitcher) (nodes : List SemanticNode)
    (inspect : Option (ℕ → SemanticNode → Got)) :
    S.Stitched nodes inspect ↔
      0 ≤ S.dib_budget_bytes ∧
        Fits S.dib_budget_bytes S.dib_budget_bytes (S.offers nodes inspect) := by
  rw [← within_budget_iff]
  exact ⟨Stitched.within, stitched_of_within⟩

end Stitcher

/-! ## Padding that is read twice -/

/-- A pixel a row, two bytes from the next. -/
def padded : DIBFrameBuffer where
  address := 0
  width := 1
  height := 1
  stride := 2
  pixel_format := "GRAY8"
  _buffer := some fun _ => [7, 0]
  _seq := some fun _ => (4, 4)

def canvas : SemanticNode where
  role := ""
  name := ""
  automation_id := ""
  bounds := { w := 1, h := 1 }

/-- An adapter with a budget of three bytes. -/
def threeBytes : Stitcher where
  casefold := id
  upper := id
  repr := id
  sha256 _ := ""
  filter_policy := { interactive_roles := [], blind_roles := [""], opaque_leaf_roles := [] }
  dib_budget_bytes := 3
  dib_retries := 3

/-- Four bytes are read of two frames. -/
theorem read_over_budget :
    ¬ ∀ (S : Stitcher) (nodes : List SemanticNode) (inspect : Option (ℕ → SemanticNode → Got)),
      S.Stitched nodes inspect := by
  intro h
  have hwithin := (h threeBytes [canvas, canvas] (some fun _ _ => .frame padded)).within
  have hfour : Stitcher.sizes
      (threeBytes.attached [canvas, canvas] (some fun _ _ => .frame padded)) = 4 := by decide
  rw [hfour] at hwithin
  exact absurd hwithin (by decide)

end Secdogie.Agent.Adapter
