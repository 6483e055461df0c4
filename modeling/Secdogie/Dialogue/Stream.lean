/-
# `Secdogie.Dialogue.Stream` — what the operator sees

A publisher and an inspector, with the packets between them: they may be lost,
repeated and overtaken.  `sees` says that a state which needs no resync shows
the view of the generation it names.  It holds as long as an image goes only
with its element or in a full snapshot, and no full snapshot of another window
arrives when it is older than what the App holds.
-/
import Secdogie.Dialogue.Publisher

namespace Secdogie.Dialogue

/-! ## Views -/

/-- The node of a tree with an index, as the inspector has it. -/
def nodeAt (tree : Tree) : Int → Option NodeView
  | .ofNat h => (tree.get h).map (fun d => .of d.obj)
  | .negSucc _ => none

def imageAt (dib : Images) : Int → Option DibRef
  | .ofNat h => (dib.get h).map Made.obj
  | .negSucc _ => none

/-- A tree of the publisher: the root, with every other node under it. -/
structure Rooted (tree : Tree) : Prop where
  root : tree.get ROOT = some root_node
  index : ∀ h d, tree.get h = some d → d.obj.index = h
  op : ∀ h d, tree.get h = some d → d.obj.op = .add
  leaf : ∀ h d, tree.get h = some d → h ≠ ROOT → d.obj.parent_index = ROOT

/-- Images and the focus name nodes of the tree. -/
structure View.WF (v : View) : Prop where
  rooted : Rooted v.tree
  image : ∀ h r, v.dib.get h = some r → r.obj.node_index = h ∧ v.tree.get h ≠ none
  focus : v.focused = -1 ∨ ∃ h : ℕ, v.focused = h ∧ v.tree.get h ≠ none

theorem rooted_root : Rooted ((OrderedDict.empty : Tree).set ROOT root_node) where
  root := by rw [OrderedDict.get_set, if_pos rfl]
  index := fun h d hd => by
    rw [OrderedDict.get_set] at hd
    split_ifs at hd with h0
    · obtain rfl := Option.some.inj hd
      rw [h0]
      rfl
    · cases hd
  op := fun h d hd => by
    rw [OrderedDict.get_set] at hd
    split_ifs at hd
    · obtain rfl := Option.some.inj hd
      rfl
    · cases hd
  leaf := fun h d hd hne => by
    rw [OrderedDict.get_set, if_neg hne] at hd
    cases hd

theorem Rooted.add {tree : Tree} (t : Rooted tree) (h : ℕ+) (n : ReadNode) :
    Rooted (tree.set h (added h n)) where
  root := by
    rw [OrderedDict.get_set, if_neg (show ROOT ≠ (h : ℕ) from h.pos.ne)]
    exact t.root
  index := fun k d hd => by
    rw [OrderedDict.get_set] at hd
    split_ifs at hd with hk
    · obtain rfl := Option.some.inj hd
      rw [hk]
      rfl
    · exact t.index k d hd
  op := fun k d hd => by
    rw [OrderedDict.get_set] at hd
    split_ifs at hd
    · obtain rfl := Option.some.inj hd
      rfl
    · exact t.op k d hd
  leaf := fun k d hd hne => by
    rw [OrderedDict.get_set] at hd
    split_ifs at hd
    · obtain rfl := Option.some.inj hd
      rfl
    · exact t.leaf k d hd hne

theorem dib_of_index {v : Option Visual} {h : ℕ} {r : Made DibRef} (hr : dib_of v h = some r) :
    r.obj.node_index = h := by
  unfold dib_of at hr
  split at hr
  · cases hr
  · dsimp only at hr
    split_ifs at hr
    all_goals
      obtain rfl := Option.some.inj hr
      rfl

/-- One node of `build`. -/
def place (acc : Tree × Images) (e : ℕ+ × ReadNode) : Tree × Images :=
  (acc.1.set e.1 (added e.1 e.2),
    match dib_of e.2.dib e.1 with
    | some ref => acc.2.set e.1 ref
    | none => acc.2)

structure Built (acc : Tree × Images) : Prop where
  rooted : Rooted acc.1
  image : ∀ h r, acc.2.get h = some r → r.obj.node_index = h ∧ acc.1.get h ≠ none

theorem Built.place {acc : Tree × Images} (b : Built acc) (e : ℕ+ × ReadNode) :
    Built (place acc e) where
  rooted := b.rooted.add e.1 e.2
  image := fun h r hr => by
    have hkept : acc.1.get h ≠ none → (acc.1.set e.1 (added e.1 e.2)).get h ≠ none := by
      rw [OrderedDict.get_set]
      split_ifs
      · rintro _ ⟨⟩
      · exact id
    rw [Dialogue.place] at hr ⊢
    cases hd : dib_of e.2.dib e.1 with
    | none =>
        simp only [hd] at hr
        exact ⟨(b.image h r hr).1, hkept (b.image h r hr).2⟩
    | some ref =>
        simp only [hd, OrderedDict.get_set] at hr
        split_ifs at hr with hh
        · obtain rfl := Option.some.inj hr
          refine ⟨hh ▸ dib_of_index hd, ?_⟩
          simp only [OrderedDict.get_set, if_pos hh]
          rintro ⟨⟩
        · exact ⟨(b.image h r hr).1, hkept (b.image h r hr).2⟩

theorem built_foldl : ∀ (l : List (ℕ+ × ReadNode)) (acc : Tree × Images), Built acc →
    Built (l.foldl place acc) ∧
      ∀ h : ℕ, acc.1.get h ≠ none ∨ h ∈ l.map (fun e => ((e.1 : ℕ))) →
        (l.foldl place acc).1.get h ≠ none
  | [], _, b => ⟨b, fun h hh => hh.elim id (fun hmem => by cases hmem)⟩
  | e :: l, acc, b => by
      obtain ⟨hb, hmem⟩ := built_foldl l (place acc e) (b.place e)
      refine ⟨hb, fun h hh => hmem h ?_⟩
      rw [place, OrderedDict.get_set]
      rcases hh with hacc | hl
      · left
        split_ifs
        · rintro ⟨⟩
        · exact hacc
      · rw [List.map_cons, List.mem_cons] at hl
        rcases hl with rfl | hl
        · exact .inl (by rw [if_pos rfl]; rintro ⟨⟩)
        · exact .inr hl

theorem length_handle_all : ∀ (nodes : List ReadNode) (p : SnapshotPublisher),
    (p.handle_all nodes).1.length = nodes.length
  | [], _ => rfl
  | n :: ns, p => by
      rw [SnapshotPublisher.handle_all]
      exact congrArg Nat.succ (length_handle_all ns _)

/-- What the publisher builds is well formed. -/
theorem built_wf (p : SnapshotPublisher) (elements : List Element)
    (window_id app_pid focused : Option Int) :
    (p.built elements window_id app_pid focused).1.WF := by
  set nodes := read elements with hnodes
  set handles := ((p.enter window_id app_pid).handle_all nodes).1 with hhandles
  have hlen : handles.length = nodes.length := length_handle_all _ _
  obtain ⟨hb, hmem⟩ := built_foldl (handles.zip nodes)
    ((OrderedDict.empty : Tree).set ROOT root_node, .empty) ⟨rooted_root, nofun⟩
  refine ⟨hb.rooted, hb.image, ?_⟩
  · change SnapshotPublisher.focus_of handles focused = -1 ∨
      ∃ h : ℕ, SnapshotPublisher.focus_of handles focused = h ∧
        (SnapshotPublisher.build nodes handles).1.get h ≠ none
    unfold SnapshotPublisher.focus_of
    cases focused with
    | none => exact .inl rfl
    | some i =>
        simp only
        split_ifs with hi
        · cases hget : handles[i.toNat]? with
          | none => exact .inl rfl
          | some h =>
              refine .inr ⟨h, rfl, ?_⟩
              have hin : (h : ℕ) ∈ (handles.zip nodes).map (fun e => ((e.1 : ℕ))) := by
                have hmap : (handles.zip nodes).map Prod.fst = handles :=
                  List.map_fst_zip hlen.le
                have hh : h ∈ (handles.zip nodes).map Prod.fst :=
                  hmap.symm ▸ List.mem_of_getElem? hget
                obtain ⟨e, he, rfl⟩ := List.mem_map.mp hh
                exact List.mem_map.mpr ⟨e, he, rfl⟩
              exact hmem h (.inr hin)
        · exact .inl rfl

/-! ## A snapshot folded in -/

/-- The App shows the view. -/
structure Shows (v : View) (app : InspectorState) : Prop where
  window : (app.window_id, app.app_pid) = v.window
  nodes : ∀ i, app.nodes.get i = nodeAt v.tree i
  dib : ∀ i, app.dib.get i = imageAt v.dib i
  focused : app.focused = v.focused

section

variable {v u : View} {nodes : Nodes} {dib : Dibs}

theorem Rooted.mem (t : Rooted v.tree) {d : Made NodeDelta} (hd : d ∈ v.tree.values) :
    ∃ h : ℕ, v.tree.get h = some d ∧ d.obj.index = h := by
  obtain ⟨h, hh⟩ := OrderedDict.mem_values.mp hd
  exact ⟨h, hh, t.index h d hh⟩

theorem Rooted.flat (t : Rooted v.tree) (hnodes : ∀ i, nodes.get i = nodeAt v.tree i) :
    Flat nodes where
  root := ⟨.of root_node.obj, by
    rw [hnodes]
    show (v.tree.get ROOT).map _ = _
    rw [t.root]
    rfl, rfl⟩
  leaf := fun i w hw h0 => by
    rw [hnodes] at hw
    cases i with
    | ofNat h =>
        obtain ⟨d, hd, rfl⟩ := Option.map_eq_some_iff.mp hw
        exact t.leaf h d hd (fun heq => h0 (congrArg Int.ofNat heq))
    | negSucc h => cases hw

/-- What follows the nodes of a snapshot: the check, the images, the focus. -/
theorem WF.closes (w : v.WF) (hnodes : ∀ i, nodes.get i = nodeAt v.tree i)
    (hdib : ∀ h : ℕ, v.dib.get h = none → dib.get h = none)
    (hneg : ∀ h : ℕ, dib.get (Int.negSucc h) = none) :
    ∃ ok dib', check_tree nodes = .ok ok ∧
      (v.dib.values.map Made.obj).foldlM (place_dib nodes) dib = .ok dib' ∧
      (∀ i, dib'.get i = imageAt v.dib i) ∧
        ¬ (v.focused ≠ -1 ∧ nodes.get v.focused = none) := by
  have hthere : ∀ h : ℕ, v.tree.get h ≠ none → nodes.get (h : Int) ≠ none := fun h hh => by
    obtain ⟨d, hd⟩ := Option.ne_none_iff_exists'.mp hh
    rw [hnodes]
    show (v.tree.get h).map _ ≠ none
    rw [hd]
    nofun
  have himage : ∀ r ∈ v.dib.values.map Made.obj, ∃ h : ℕ, ∃ m, v.dib.get h = some m ∧ m.obj = r ∧
      r.node_index = h := fun r hr => by
    obtain ⟨m, hm, rfl⟩ := List.mem_map.mp hr
    obtain ⟨h, hh⟩ := OrderedDict.mem_values.mp hm
    exact ⟨h, m, hh, rfl, (w.image h m hh).1⟩
  obtain ⟨ok, hok⟩ := (w.rooted.flat hnodes).checked
  have hkeys : (v.dib.values.map Made.obj).map DibRef.node_index =
      v.dib.keys.map Int.ofNat := by
    rw [OrderedDict.values, OrderedDict.keys, List.map_map, List.map_map, List.map_map]
    refine List.map_congr_left (fun e he => ?_)
    exact (w.image e.1 e.2 (OrderedDict.get_eq_some_iff.mpr he)).1
  obtain ⟨dib', hdib', hrefs, hothers⟩ := place_spec (v.dib.values.map Made.obj) dib
    (fun r hr => by
      obtain ⟨h, m, hm, rfl, hi⟩ := himage r hr
      rw [hi]
      exact hthere h (w.image h m hm).2)
    (by
      rw [hkeys]
      exact List.Nodup.map (fun _ _ => Int.ofNat.inj) v.dib.nodup_keys)
  refine ⟨ok, dib', hok, hdib', fun i => ?_, ?_⟩
  · cases i with
    | ofNat h =>
        show _ = (v.dib.get h).map Made.obj
        cases hm : v.dib.get h with
        | some m =>
            have hmem : m.obj ∈ v.dib.values.map Made.obj :=
              List.mem_map_of_mem (OrderedDict.mem_values.mpr ⟨h, hm⟩)
            have hr := hrefs m.obj hmem
            rw [(w.image h m hm).1] at hr
            exact hr
        | none =>
            rw [hothers (Int.ofNat h), show Int.ofNat h = (h : Int) from rfl, hdib h hm]
            · rfl
            · intro r hr heq
              obtain ⟨k, m, hk, _, hi⟩ := himage r hr
              have hkh : k = h := Int.ofNat.inj (hi.symm.trans heq)
              rw [hkh, hm] at hk
              cases hk
    | negSucc h =>
        rw [hothers, hneg]
        · rfl
        · intro r hr heq
          obtain ⟨k, _, _, _, hi⟩ := himage r hr
          rw [hi] at heq
          cases heq
  · rintro ⟨hfoc, hnone⟩
    rcases w.focus with hf | ⟨h, hf, hh⟩
    · exact hfoc hf
    · exact hthere h hh (hf ▸ hnone)

/-- A full snapshot is shown. -/
theorem fold_full (w : v.WF) (app : InspectorState) {pkt : StateSnapshotPacket}
    (hwin : (pkt.window_id, pkt.app_pid) = v.window) (hnodes : pkt.nodes = v.tree.values)
    (hdib : pkt.dib_references = v.dib.values) (hfoc : pkt.focused_node_index = v.focused)
    (hfull : pkt.full = true) :
    ∃ app', fold_in app pkt = some app' ∧ app'.needs_resync = false ∧
      app'.generation = pkt.generation ∧ Shows v app' := by
  have hindex : ((v.tree.values.map Made.obj).map NodeDelta.index) =
      v.tree.keys.map Int.ofNat := by
    rw [OrderedDict.values, OrderedDict.keys, List.map_map, List.map_map, List.map_map]
    refine List.map_congr_left (fun e he => ?_)
    exact w.rooted.index e.1 e.2 (OrderedDict.get_eq_some_iff.mpr he)
  obtain ⟨nodes, hrebuild, hbecomes⟩ := rebuild_spec (v.tree.values.map Made.obj) .empty
    (by
      rw [hindex]
      exact List.Nodup.map (fun _ _ => Int.ofNat.inj) v.tree.nodup_keys)
    (fun _ _ => rfl)
  have hget : ∀ i, nodes.get i = nodeAt v.tree i := by
    intro i
    have hother : (∀ h d, v.tree.get h = some d → (h : Int) ≠ i) → nodes.get i = none := by
      intro hne
      rw [hbecomes.2 i]
      · rfl
      · intro d hd
        obtain ⟨m, hm, rfl⟩ := List.mem_map.mp hd
        obtain ⟨h, hh, hi⟩ := w.rooted.mem hm
        exact hi ▸ hne h m hh
    cases i with
    | ofNat h =>
        show _ = (v.tree.get h).map _
        cases hd : v.tree.get h with
        | some d =>
            have hmem : d.obj ∈ v.tree.values.map Made.obj :=
              List.mem_map_of_mem (OrderedDict.mem_values.mpr ⟨h, hd⟩)
            have hr := hbecomes.1 d.obj hmem
            rw [w.rooted.index h d hd] at hr
            exact hr
        | none =>
            refine hother (fun k d hk heq => ?_)
            rw [Int.ofNat.inj heq, hd] at hk
            cases hk
    | negSucc h => exact hother (fun k d _ heq => by cases heq)
  obtain ⟨ok, dib', hok, hplace, himages, hfocus⟩ := @WF.closes _ _ .empty w hget
    (fun _ _ => rfl) (fun _ => rfl)
  have hfold : fold_packet app pkt = .ok (nodes, dib') := by
    rw [fold_packet, hnodes, hdib, hfull, hfoc]
    simp only [if_true, rebuild, hrebuild]
    show (do let _ ← check_tree nodes; _) = _
    rw [hok]
    show (do let dib ← List.foldlM (place_dib nodes) _ (v.dib.values.map Made.obj); _) = _
    rw [hplace]
    exact if_neg hfocus
  refine ⟨_, by rw [fold_in, hfold], rfl, rfl, ⟨hwin, hget, himages, hfoc⟩⟩

/-- The three parts of `_diff`. -/
def diff_added (old new : Tree) : List NodeDelta :=
  ((new.items.filter (fun e => old.get e.1 = none)).map Prod.snd).map Made.obj

def diff_updated (old new : Tree) : List NodeDelta :=
  ((new.items.filter (fun e => old.get e.1 ≠ none ∧ old.get e.1 ≠ some e.2)).map
    (fun e => updated e.2)).map Made.obj

def diff_removed (old new : Tree) : List NodeDelta :=
  ((old.items.filter (fun e => new.get e.1 = none)).map (fun e => removed e.1)).map Made.obj

theorem diff_map_obj (old new : Tree) : (diff old new).map Made.obj =
    diff_added old new ++ diff_updated old new ++ diff_removed old new := by
  rw [diff, List.map_append, List.map_append, diff_added, diff_updated, diff_removed]

theorem mem_diff_added {old new : Tree} {d : NodeDelta} : d ∈ diff_added old new ↔
    ∃ h m, new.get h = some m ∧ old.get h = none ∧ m.obj = d := by
  simp [diff_added, OrderedDict.get_eq_some_iff, and_assoc]

theorem mem_diff_updated {old new : Tree} {d : NodeDelta} : d ∈ diff_updated old new ↔
    ∃ h m, new.get h = some m ∧ old.get h ≠ none ∧ old.get h ≠ some m ∧ (updated m).obj = d := by
  simp [diff_updated, OrderedDict.get_eq_some_iff, and_assoc]

theorem mem_diff_removed {old new : Tree} {d : NodeDelta} : d ∈ diff_removed old new ↔
    ∃ h m, old.get h = some m ∧ new.get h = none ∧ (removed h).obj = d := by
  simp [diff_removed, OrderedDict.get_eq_some_iff, and_assoc]

/-- Parts of a tree name each node once. -/
theorem nodup_index (tree : Tree) (p : ℕ × Made NodeDelta → Bool)
    (f : ℕ × Made NodeDelta → Made NodeDelta)
    (hf : ∀ h d, tree.get h = some d → (f (h, d)).obj.index = h) :
    ((((tree.items.filter p).map f).map Made.obj).map NodeDelta.index).Nodup := by
  have hindex : (((tree.items.filter p).map f).map Made.obj).map NodeDelta.index =
      ((tree.items.filter p).map Prod.fst).map Int.ofNat := by
    rw [List.map_map, List.map_map, List.map_map]
    refine List.map_congr_left (fun e he => ?_)
    exact hf e.1 e.2 (OrderedDict.get_eq_some_iff.mpr (List.mem_filter.mp he).1)
  rw [hindex]
  exact List.Nodup.map (fun _ _ => Int.ofNat.inj)
    (tree.nodup.sublist (List.filter_sublist.map _))

/-- The changes between two trees turn one into the other. -/
theorem patch_diff (wu : Rooted u.tree) (wv : Rooted v.tree)
    (hnodes : ∀ i, nodes.get i = nodeAt u.tree i) :
    ∃ nodes' dib', patch nodes dib ((diff u.tree v.tree).map Made.obj) = .ok (nodes', dib') ∧
      (∀ i, nodes'.get i = nodeAt v.tree i) ∧
      (∀ h : ℕ, dib'.get h =
        if u.tree.get h ≠ none ∧ v.tree.get h = none then none else dib.get h) ∧
      ∀ h : ℕ, dib'.get (Int.negSucc h) = dib.get (Int.negSucc h) := by
  have hu : ∀ h : ℕ, nodes.get h = (u.tree.get h).map (fun d => .of d.obj) := fun h => hnodes h
  -- what is new
  obtain ⟨nodes₁, hadd, badd⟩ := patch_set .add (by rintro ⟨⟩) (diff_added u.tree v.tree) nodes dib
    (fun d hd => by
      obtain ⟨h, m, hm, _, rfl⟩ := mem_diff_added.mp hd
      exact wv.op h m hm)
    (nodup_index v.tree _ Prod.snd wv.index)
    (fun d hd => by
      obtain ⟨h, m, hm, hnone, rfl⟩ := mem_diff_added.mp hd
      rw [wv.index h m hm, hu, hnone]
      rfl)
  have hget₁ : ∀ h : ℕ, nodes₁.get h =
      if u.tree.get h = none then (v.tree.get h).map (fun d => .of d.obj) else nodes.get h := by
    intro h
    split_ifs with hnone
    · cases hm : v.tree.get h with
      | some m =>
          have hr := badd.1 m.obj (mem_diff_added.mpr ⟨h, m, hm, hnone, rfl⟩)
          rw [wv.index h m hm] at hr
          exact hr
      | none =>
          rw [badd.2, hu, hnone]
          · intro d hd heq
            obtain ⟨k, m, hk, _, rfl⟩ := mem_diff_added.mp hd
            rw [wv.index k m hk, Nat.cast_inj] at heq
            rw [heq, hm] at hk
            cases hk
    · refine badd.2 h (fun d hd heq => ?_)
      obtain ⟨k, m, hk, hkn, rfl⟩ := mem_diff_added.mp hd
      rw [wv.index k m hk, Nat.cast_inj] at heq
      exact hnone (heq ▸ hkn)
  -- what has changed
  obtain ⟨nodes₂, hupd, bupd⟩ := patch_set .update (by rintro ⟨⟩) (diff_updated u.tree v.tree) nodes₁ dib
    (fun d hd => by
      obtain ⟨_, _, _, _, _, rfl⟩ := mem_diff_updated.mp hd
      rfl)
    (nodup_index v.tree _ (fun e => updated e.2) wv.index)
    (fun d hd => by
      obtain ⟨h, m, hm, hthere, _, rfl⟩ := mem_diff_updated.mp hd
      obtain ⟨m', hm'⟩ := Option.ne_none_iff_exists'.mp hthere
      show (nodes₁.get m.obj.index).isSome = _
      rw [wv.index h m hm, hget₁, if_neg hthere, hu, hm']
      rfl)
  have hget₂ : ∀ h : ℕ, nodes₂.get h =
      if v.tree.get h = none then nodes.get h else (v.tree.get h).map (fun d => .of d.obj) := by
    intro h
    have hsame : (∀ m, v.tree.get h = some m → u.tree.get h = none ∨ u.tree.get h = some m) →
        nodes₂.get h = nodes₁.get h := by
      intro hm
      refine bupd.2 h (fun d hd heq => ?_)
      obtain ⟨k, m, hk, hthere, hne, rfl⟩ := mem_diff_updated.mp hd
      change m.obj.index = h at heq
      rw [wv.index k m hk, Nat.cast_inj] at heq
      subst heq
      exact (hm m hk).elim hthere hne
    cases hm : v.tree.get h with
    | none =>
        rw [hsame (fun m h' => by rw [hm] at h'; cases h'), hget₁, hm, if_pos rfl]
        split_ifs with hnone
        · rw [hu, hnone]
        · rfl
    | some m =>
        rw [if_neg (by rintro ⟨⟩)]
        by_cases hkeep : u.tree.get h = none ∨ u.tree.get h = some m
        · rw [hsame (fun m' h' => by
            obtain rfl := Option.some.inj (hm.symm.trans h')
            exact hkeep), hget₁, hu, hm]
          rcases hkeep with hnone | hsome
          · rw [if_pos hnone]
          · rw [hsome]
            rfl
        · rw [not_or] at hkeep
          have hr := bupd.1 (updated m).obj
            (mem_diff_updated.mpr ⟨h, m, hm, hkeep.1, hkeep.2, rfl⟩)
          change nodes₂.get m.obj.index = _ at hr
          rw [wv.index h m hm] at hr
          exact hr
  have hneg₂ : ∀ h : ℕ, nodes₂.get (Int.negSucc h) = none := by
    intro h
    rw [bupd.2, badd.2, hnodes]
    · rfl
    · intro d hd heq
      obtain ⟨k, m, hk, _, rfl⟩ := mem_diff_added.mp hd
      rw [wv.index k m hk] at heq
      cases heq
    · intro d hd heq
      obtain ⟨k, m, hk, _, _, rfl⟩ := mem_diff_updated.mp hd
      change m.obj.index = _ at heq
      rw [wv.index k m hk] at heq
      cases heq
  -- what is gone: still under the root
  have hflat : Flat nodes₂ := by
    refine ⟨⟨.of root_node.obj, ?_, rfl⟩, fun i w hw h0 => ?_⟩
    · rw [show (0 : Int) = ((ROOT : ℕ) : Int) from rfl, hget₂, wv.root]
      rfl
    · cases i with
      | ofNat h =>
          have hne : h ≠ ROOT := fun heq => h0 (congrArg Int.ofNat heq)
          change nodes₂.get (h : Int) = some w at hw
          rw [hget₂, hu] at hw
          split_ifs at hw
          · obtain ⟨d, hd, rfl⟩ := Option.map_eq_some_iff.mp hw
            exact wu.leaf h d hd hne
          · obtain ⟨d, hd, rfl⟩ := Option.map_eq_some_iff.mp hw
            exact wv.leaf h d hd hne
      | negSucc h => rw [hneg₂] at hw; cases hw
  obtain ⟨nodes₃, dib₃, hrem, hget₃, hdib₃⟩ := patch_remove (diff_removed u.tree v.tree) nodes₂ dib
    hflat
    (fun d hd => by
      obtain ⟨h, m, hm, hnone, rfl⟩ := mem_diff_removed.mp hd
      refine ⟨rfl, Int.natCast_pos.mpr (Nat.pos_of_ne_zero (fun h0 => ?_))⟩
      have hroot : v.tree.get 0 = some root_node := wv.root
      rw [h0, hroot] at hnone
      cases hnone)
    (nodup_index u.tree _ (fun e => removed e.1) (fun _ _ _ => rfl))
    (fun d hd => by
      obtain ⟨h, m, hm, hnone, rfl⟩ := mem_diff_removed.mp hd
      show nodes₂.get (h : Int) ≠ none
      rw [hget₂, if_pos hnone, hu, hm]
      rintro ⟨⟩)
  have hgone : ∀ h : ℕ, (h : Int) ∈ (diff_removed u.tree v.tree).map NodeDelta.index ↔
      u.tree.get h ≠ none ∧ v.tree.get h = none := by
    intro h
    rw [List.mem_map]
    constructor
    · rintro ⟨d, hd, heq⟩
      obtain ⟨k, m, hk, hnone, rfl⟩ := mem_diff_removed.mp hd
      obtain rfl : k = h := Int.ofNat.inj heq
      exact ⟨by rw [hk]; rintro ⟨⟩, hnone⟩
    · rintro ⟨hthere, hnone⟩
      obtain ⟨m, hm⟩ := Option.ne_none_iff_exists'.mp hthere
      exact ⟨_, mem_diff_removed.mpr ⟨h, m, hm, hnone, rfl⟩, rfl⟩
  have hneg : ∀ h : ℕ, Int.negSucc h ∉ (diff_removed u.tree v.tree).map NodeDelta.index := by
    intro h hmem
    obtain ⟨d, hd, heq⟩ := List.mem_map.mp hmem
    obtain ⟨k, m, _, _, rfl⟩ := mem_diff_removed.mp hd
    cases heq
  refine ⟨nodes₃, dib₃, ?_, fun i => ?_, fun h => ?_, fun h => ?_⟩
  · rw [diff_map_obj, patch, List.foldlM_append, List.foldlM_append]
    show (do let acc ← (do let acc ← patch nodes dib _; _); _) = _
    rw [hadd]
    show (do let acc ← patch nodes₁ dib _; _) = _
    rw [hupd]
    exact hrem
  · cases i with
    | ofNat h =>
        show nodes₃.get (h : Int) = (v.tree.get h).map _
        rw [hget₃]
        by_cases hg : u.tree.get h ≠ none ∧ v.tree.get h = none
        · rw [if_pos ((hgone h).mpr hg), hg.2]
          rfl
        · rw [if_neg (fun hmem => hg ((hgone h).mp hmem)), hget₂]
          split_ifs with hnone
          · rw [hu, hnone]
            cases hthere : u.tree.get h with
            | none => rfl
            | some m => exact absurd ⟨by rw [hthere]; rintro ⟨⟩, hnone⟩ hg
          · rfl
    | negSucc h =>
        rw [hget₃, if_neg (hneg h), hneg₂]
        rfl
  · rw [hdib₃]
    exact if_congr (hgone h) rfl rfl
  · rw [hdib₃, if_neg (hneg h)]

/-- An element that stays and has an image keeps an image. -/
def Kept (u v : View) : Prop :=
  ∀ h, u.dib.get h ≠ none → v.tree.get h ≠ none → v.dib.get h ≠ none

/-- A delta from the view that is shown. -/
theorem fold_delta (wu : u.WF) (wv : v.WF) (hkept : Kept u v) {app : InspectorState}
    (hshows : Shows u app) {pkt : StateSnapshotPacket}
    (hwin : (pkt.window_id, pkt.app_pid) = v.window) (hchanges : pkt.nodes = diff u.tree v.tree)
    (hrefs : pkt.dib_references = v.dib.values) (hfoc : pkt.focused_node_index = v.focused)
    (hfull : pkt.full = false) :
    ∃ app', fold_in app pkt = some app' ∧ app'.needs_resync = false ∧
      app'.generation = pkt.generation ∧ Shows v app' := by
  obtain ⟨nodes, dib, hpatch, hget, hdib, hneg⟩ := @patch_diff _ _ _ app.dib wu.rooted wv.rooted
    hshows.nodes
  obtain ⟨ok, dib', hok, hplace, himages, hfocus⟩ := @WF.closes _ _ dib wv hget
    (fun h hnone => by
      rw [hdib]
      split_ifs with hg
      · rfl
      · rw [hshows.dib]
        show (u.dib.get h).map _ = none
        cases hu : u.dib.get h with
        | none => rfl
        | some r =>
            have hthere : u.dib.get h ≠ none := by rw [hu]; rintro ⟨⟩
            by_cases hv : v.tree.get h = none
            · exact absurd ⟨(wu.image h r hu).2, hv⟩ hg
            · exact absurd hnone (hkept h hthere hv))
    (fun h => by
      rw [hneg, hshows.dib]
      rfl)
  have hfold : fold_packet app pkt = .ok (nodes, dib') := by
    rw [fold_packet, hchanges, hrefs, hfull, hfoc]
    simp only [Bool.false_eq_true, if_false, hpatch]
    show (do let _ ← check_tree nodes; _) = _
    rw [hok]
    show (do let dib ← List.foldlM (place_dib nodes) _ (v.dib.values.map Made.obj); _) = _
    rw [hplace]
    exact if_neg hfocus
  exact ⟨_, by rw [fold_in, hfold], rfl, rfl, ⟨hwin, hget, himages, hfoc⟩⟩

end

/-! ## The handles a publish gives -/

namespace SnapshotPublisher

/-- Handles and images are of numbers already given. -/
structure Numbered (p : SnapshotPublisher) : Prop where
  handle : ∀ key h, p.handles.get key = some h → h < p.next_handle
  image : ∀ h, p.dib.get h ≠ none → 0 < h ∧ h < (p.next_handle : ℕ)

/-- Only the handles of a publisher differ. -/
def Renamed (p q : SnapshotPublisher) : Prop :=
  ∃ handles next_handle, q = { p with handles, next_handle }

theorem handle_spec (p : SnapshotPublisher) (key : Identity)
    (hp : ∀ key h, p.handles.get key = some h → h < p.next_handle) :
    p.Renamed (p.handle key).2 ∧ p.next_handle ≤ (p.handle key).2.next_handle ∧
      (p.handle key).1 < (p.handle key).2.next_handle ∧
      (∀ k h, (p.handle key).2.handles.get k = some h → h < (p.handle key).2.next_handle) ∧
      (∀ k h, (p.handle key).2.handles.get k = some h →
        p.handles.get k = some h ∨ p.next_handle ≤ h) ∧
      (p.handles.get key = some (p.handle key).1 ∨ p.next_handle ≤ (p.handle key).1) := by
  rw [handle]
  cases hk : p.handles.get key with
  | some h =>
      exact ⟨⟨_, _, rfl⟩, le_refl _, hp key h hk, hp, fun _ _ => .inl, .inl rfl⟩
  | none =>
      have hlt : p.next_handle < p.next_handle + 1 := PNat.lt_add_right _ _
      refine ⟨⟨_, _, rfl⟩, hlt.le, hlt, fun k h hget => ?_, fun k h hget => ?_, .inr le_rfl⟩
      · simp only [OrderedDict.get_set] at hget
        split_ifs at hget
        · exact Option.some.inj hget ▸ hlt
        · exact (hp k h hget).trans hlt
      · simp only [OrderedDict.get_set] at hget
        split_ifs at hget
        · exact .inr (Option.some.inj hget).le
        · exact .inl hget

theorem handle_all_spec : ∀ (nodes : List ReadNode) (p : SnapshotPublisher),
    (∀ key h, p.handles.get key = some h → h < p.next_handle) →
    p.Renamed (p.handle_all nodes).2 ∧ p.next_handle ≤ (p.handle_all nodes).2.next_handle ∧
      (∀ k h, (p.handle_all nodes).2.handles.get k = some h →
        h < (p.handle_all nodes).2.next_handle) ∧
      ∀ e ∈ (p.handle_all nodes).1.zip nodes, e.1 < (p.handle_all nodes).2.next_handle ∧
        (p.handles.get e.2.key = some e.1 ∨ p.next_handle ≤ e.1)
  | [], p, hp => ⟨⟨_, _, rfl⟩, le_refl _, hp, nofun⟩
  | n :: ns, p, hp => by
      obtain ⟨⟨hs₁, nx₁, hq⟩, hle, hlt, hbound, hold, hgiven⟩ := p.handle_spec n.key hp
      obtain ⟨⟨hs₂, nx₂, hr⟩, hle', hbound', hall⟩ := handle_all_spec ns (p.handle n.key).2 hbound
      rw [handle_all]
      refine ⟨⟨hs₂, nx₂, by rw [hr, hq]⟩, hle.trans hle', hbound', fun e he => ?_⟩
      rcases List.mem_cons.mp he with rfl | he
      · exact ⟨hlt.trans_le hle', hgiven⟩
      · obtain ⟨he1, he2⟩ := hall e he
        refine ⟨he1, he2.elim (hold _ _) (fun h => .inr (hle.trans h))⟩

end SnapshotPublisher

/-! ## What a publish shows -/

theorem get_place_tree {acc : Tree × Images} {e : ℕ+ × ReadNode} {h : ℕ} :
    (place acc e).1.get h ≠ none ↔ h = e.1 ∨ acc.1.get h ≠ none := by
  rw [place, OrderedDict.get_set]
  split_ifs with heq
  · simp [heq]
  · simp [heq]

theorem get_place_dib {acc : Tree × Images} {e : ℕ+ × ReadNode} {h : ℕ} :
    (place acc e).2.get h ≠ none ↔
      (h = e.1 ∧ dib_of e.2.dib e.1 ≠ none) ∨ acc.2.get h ≠ none := by
  rw [place]
  cases hd : dib_of e.2.dib e.1 with
  | none => simp
  | some r =>
      simp only [OrderedDict.get_set]
      split_ifs with heq
      · simp [heq]
      · simp [heq]

/-- The nodes of a built tree are those of the list, and so are the images. -/
theorem get_build (l : List (ℕ+ × ReadNode)) (h : ℕ) (acc : Tree × Images) :
    ((l.foldl place acc).1.get h ≠ none ↔ (∃ e ∈ l, h = e.1) ∨ acc.1.get h ≠ none) ∧
      ((l.foldl place acc).2.get h ≠ none ↔
        (∃ e ∈ l, h = e.1 ∧ dib_of e.2.dib e.1 ≠ none) ∨ acc.2.get h ≠ none) := by
  induction l generalizing acc with
  | nil => simp
  | cons e l ih =>
      obtain ⟨htree, hdib⟩ := ih (place acc e)
      rw [List.foldl_cons, htree, hdib, get_place_tree, get_place_dib, List.exists_mem_cons_iff,
        List.exists_mem_cons_iff]
      exact ⟨by rw [← or_assoc, or_comm (b := h = e.1)], by
        rw [← or_assoc, or_comm (b := h = e.1 ∧ _)]⟩

namespace SnapshotPublisher

/-- An element that keeps its handle, and has an image, has one still. -/
def Keeps (p : SnapshotPublisher) (elements : List Element) : Prop :=
  ∀ n ∈ read elements, ∀ h, p.handles.get n.key = some h → p.dib.get h ≠ none →
    dib_of n.dib h ≠ none

theorem enter_due {p : SnapshotPublisher} {window_id app_pid : Option Int}
    (h : (p.enter window_id app_pid).due = false) : p.enter window_id app_pid = p := by
  rw [enter] at h ⊢
  split_ifs at h ⊢ with hw
  · simp [due] at h
  · rfl

theorem built_spec (p : SnapshotPublisher) (elements : List Element)
    (window_id app_pid focused : Option Int)
    (hp : ∀ key h, p.handles.get key = some h → h < p.next_handle) :
    (p.enter window_id app_pid).Renamed (p.built elements window_id app_pid focused).2 ∧
      (p.built elements window_id app_pid focused).1.window =
        (p.enter window_id app_pid).window ∧
      (∀ key h, (p.built elements window_id app_pid focused).2.handles.get key = some h →
        h < (p.built elements window_id app_pid focused).2.next_handle) ∧
      (p.enter window_id app_pid).next_handle ≤
        (p.built elements window_id app_pid focused).2.next_handle ∧
      (∀ h, (p.built elements window_id app_pid focused).1.dib.get h ≠ none →
        0 < h ∧ h < ((p.built elements window_id app_pid focused).2.next_handle : ℕ)) ∧
      ((p.enter window_id app_pid).due = false → p.Numbered → p.Keeps elements →
        Kept p.view (p.built elements window_id app_pid focused).1) := by
  have henter : ∀ key h, (p.enter window_id app_pid).handles.get key = some h →
      h < (p.enter window_id app_pid).next_handle := by
    rw [enter]
    split_ifs
    · rintro key h hget
      cases hget
    · exact hp
  obtain ⟨hren, hle, hbound, hall⟩ := (p.enter window_id app_pid).handle_all_spec
    (read elements) henter
  set q := (p.enter window_id app_pid).handle_all (read elements) with hq
  have hget := fun h => get_build (q.1.zip (read elements)) h
    ((OrderedDict.empty : Tree).set ROOT root_node, .empty)
  refine ⟨hren, ?_, hbound, hle, fun h hh => ?_, fun hdue hnum hkeeps h himage htree => ?_⟩
  · obtain ⟨_, _, heq⟩ := hren
    show q.2.window = _
    rw [heq]
  · rcases (hget h).2.mp hh with ⟨e, he, rfl, _⟩ | hempty
    · exact ⟨e.1.pos, PNat.coe_lt_coe _ _ |>.mpr (hall e he).1⟩
    · exact absurd rfl hempty
  · rw [enter_due hdue] at hall
    obtain ⟨hpos, hlt⟩ := hnum.image h himage
    refine (hget h).2.mpr ?_
    rcases (hget h).1.mp htree with ⟨e, he, rfl⟩ | hroot
    · refine .inl ⟨e, he, rfl, ?_⟩
      rcases (hall e he).2 with hold | hnew
      · exact hkeeps e.2 (List.of_mem_zip he).2 e.1 hold himage
      · exact absurd hlt (not_lt.mpr (PNat.coe_le_coe _ _ |>.mpr hnew))
    · rw [OrderedDict.get_set, if_neg (show h ≠ ROOT from hpos.ne')] at hroot
      exact absurd rfl hroot

end SnapshotPublisher

/-! ## The stream -/

/-- A publisher, the packets it has sent, an App, and what the publisher showed
with each packet. -/
structure Stream where
  node : SnapshotPublisher
  sent : List StateSnapshotPacket
  app : InspectorState
  shown : List View

inductive Event where
  | publish (elements : List Element) (window_id app_pid focused : Option Int)
  | request_full
  /-- a send that raised, caught by `_emit` -/
  | send_failed
  /-- the k-th packet reaches the App -/
  | deliver (k : ℕ)

namespace Stream

def start (window : Int × Int) (full_every : Int) : Stream :=
  ⟨{ window, full_every }, [], EMPTY, []⟩

def push (s : Stream) : Option StateSnapshotPacket × SnapshotPublisher → Stream
  | (none, node) => { s with node }
  | (some pkt, node) => { s with node, sent := s.sent ++ [pkt], shown := s.shown ++ [node.view] }

def step (s : Stream) : Event → Option Stream
  | .publish elements window_id app_pid focused =>
      some (s.push (s.node.publish elements window_id app_pid focused))
  | .request_full => some (s.push s.node.request_full)
  | .send_failed => some { s with node := { s.node with need_full := true } }
  | .deliver k => do
      let pkt ← s.sent[k]?
      let app ← apply s.app pkt
      some { s with app }

/-- The states that events lead to, each of them as `ok` asks. -/
inductive Run (ok : Stream → Event → Prop) (window : Int × Int) (full_every : Int) :
    Stream → Prop
  | start : Run ok window full_every (start window full_every)
  | step {s s' : Stream} (e : Event) (h : Run ok window full_every s) (hok : ok s e)
      (hstep : s.step e = some s') : Run ok window full_every s'

/-- The App shows what the publisher showed at the generation it names. -/
def Faithful (s : Stream) : Prop :=
  s.app.needs_resync = false →
    ∃ (k : ℕ) (v : View), s.app.generation = k ∧ s.shown[k]? = some v ∧ Shows v s.app

/-- A delta keeps the images of the elements that stay, and a full snapshot of
another window is not older than what the App holds. -/
def Meets (s : Stream) : Event → Prop
  | .publish elements window_id app_pid _ =>
      (s.node.enter window_id app_pid).due = false → s.node.Keeps elements
  | .deliver k => ∀ pkt, s.sent[k]? = some pkt → pkt.full = true →
      pkt.window_id ≠ s.app.window_id → s.app.generation ≤ pkt.generation
  | _ => True

/-- What a packet says about the view it was sent with. -/
structure Says (shown : List View) (k : ℕ) (pkt : StateSnapshotPacket) (v : View) : Prop where
  view : shown[k]? = some v
  generation : pkt.generation = k
  window : (pkt.window_id, pkt.app_pid) = v.window
  dib : pkt.dib_references = v.dib.values
  focused : pkt.focused_node_index = v.focused
  full : pkt.full = true → pkt.nodes = v.tree.values
  delta : pkt.full = false → ∃ (j : ℕ) (u : View), k = j + 1 ∧ pkt.base_generation = j ∧
    shown[j]? = some u ∧ u.window = v.window ∧ pkt.nodes = diff u.tree v.tree ∧ Kept u v

theorem Says.append {shown : List View} {k : ℕ} {pkt : StateSnapshotPacket} {v : View}
    (h : Says shown k pkt v) (w : View) : Says (shown ++ [w]) k pkt v := by
  have hkeep : ∀ {i : ℕ} {x : View}, shown[i]? = some x → (shown ++ [w])[i]? = some x :=
    fun hx => by
      rw [List.getElem?_append_left (List.getElem?_eq_some_iff.mp hx).1]
      exact hx
  refine { h with view := hkeep h.view, delta := fun hd => ?_ }
  obtain ⟨j, u, hj, hbase, hu, hrest⟩ := h.delta hd
  exact ⟨j, u, hj, hbase, hkeep hu, hrest⟩

structure Inv (s : Stream) : Prop where
  count : s.sent.length = s.shown.length
  generation : s.node.generation + 1 = s.shown.length
  wf : ∀ v ∈ s.shown, v.WF
  last : s.shown = [] ∧ s.node.need_full = true ∨ s.shown.getLast? = some s.node.view
  numbered : s.node.Numbered
  packets : ∀ k pkt, s.sent[k]? = some pkt → ∃ v, Says s.shown k pkt v
  faithful : s.Faithful

section

variable {s s' : Stream}

theorem getElem?_append_keeps {α : Type*} {l : List α} {i : ℕ} {x : α} (h : l[i]? = some x)
    (y : α) : (l ++ [y])[i]? = some x := by
  rw [List.getElem?_append_left (List.getElem?_eq_some_iff.mp h).1]
  exact h

/-- A packet is sent with the view the publisher has then. -/
theorem Inv.sends (hi : Inv s) {node : SnapshotPublisher} {pkt : StateSnapshotPacket}
    (hgen : node.generation = s.node.generation + 1) (hwf : node.view.WF)
    (hnum : node.Numbered) (hsaid : Says (s.shown ++ [node.view]) s.shown.length pkt node.view) :
    Inv (s.push (some pkt, node)) where
  count := by simp [push, hi.count]
  generation := by
    show node.generation + 1 = ((s.shown ++ [node.view]).length : ℕ)
    rw [hgen, hi.generation, List.length_append]
    rfl
  wf := fun v hv => by
    rcases List.mem_append.mp hv with hv | hv
    · exact hi.wf v hv
    · rw [List.mem_singleton.mp hv]
      exact hwf
  last := .inr List.getLast?_concat
  numbered := hnum
  packets := fun k q hq => by
    change (s.sent ++ [pkt])[k]? = some q at hq
    rcases lt_or_ge k s.sent.length with hk | hk
    · rw [List.getElem?_append_left hk] at hq
      obtain ⟨v, hv⟩ := hi.packets k q hq
      exact ⟨v, hv.append _⟩
    · have hlt := (List.getElem?_eq_some_iff.mp hq).1
      rw [List.length_append, List.length_singleton] at hlt
      obtain rfl : k = s.sent.length := by omega
      rw [List.getElem?_concat_length] at hq
      obtain rfl := Option.some.inj hq
      exact ⟨_, hi.count ▸ hsaid⟩
  faithful := fun hsync => by
    obtain ⟨k, v, hk, hv, hshows⟩ := hi.faithful hsync
    exact ⟨k, v, hk, getElem?_append_keeps hv _, hshows⟩

theorem Inv.request_full (hi : Inv s) : Inv (s.push s.node.request_full) := by
  rw [SnapshotPublisher.request_full]
  split_ifs with hneg
  · -- nothing has been published
    have hnil : s.shown = [] := by
      have hgen := hi.generation
      change s.node.generation < 0 at hneg
      exact List.length_eq_zero_iff.mp (by omega)
    exact { hi with
      last := .inl ⟨hnil, rfl⟩
      numbered := ⟨hi.numbered.handle, hi.numbered.image⟩ }
  · have hlast : s.shown.getLast? = some s.node.view := by
      rcases hi.last with ⟨hnil, _⟩ | h
      · have hgen := hi.generation
        rw [hnil, List.length_nil] at hgen
        change ¬ s.node.generation < 0 at hneg
        omega
      · exact h
    refine hi.sends rfl (hi.wf _ (List.mem_of_getLast? hlast))
      ⟨hi.numbered.handle, hi.numbered.image⟩ ?_
    exact {
      view := List.getElem?_concat_length
      generation := hi.generation
      window := rfl
      dib := rfl
      focused := rfl
      full := fun _ => rfl
      delta := nofun }

theorem Inv.publish (hi : Inv s) (elements : List Element) (window_id app_pid focused : Option Int)
    (hmeets : (s.node.enter window_id app_pid).due = false → s.node.Keeps elements) :
    Inv (s.push (s.node.publish elements window_id app_pid focused)) := by
  obtain ⟨hren, hwin, hbound, hle, hpos, hkept⟩ := s.node.built_spec elements window_id app_pid
    focused hi.numbered.handle
  have hwf := built_wf s.node elements window_id app_pid focused
  rw [SnapshotPublisher.publish]
  set b := s.node.built elements window_id app_pid focused with hb
  obtain ⟨v, q⟩ := b
  obtain ⟨handles, next_handle, hq⟩ := hren
  simp only at hwin hbound hle hpos hkept hwf hq ⊢
  have hgen : q.generation = s.node.generation := by
    rw [hq, SnapshotPublisher.enter]
    split_ifs <;> rfl
  have hdue : q.due = (s.node.enter window_id app_pid).due := by rw [hq]; rfl
  have hqwin : v.window = q.window := by rw [hwin, hq]
  -- without a full snapshot the stream is that of the last packet
  have hdelta : q.due = false → s.shown.getLast? = some s.node.view ∧
      q = { s.node with handles, next_handle } := by
    intro hfalse
    have henter := SnapshotPublisher.enter_due (hdue ▸ hfalse)
    rw [henter] at hq
    refine ⟨?_, hq⟩
    rcases hi.last with ⟨_, hneed⟩ | h
    · rw [hq] at hfalse
      simp [SnapshotPublisher.due, hneed] at hfalse
    · exact h
  split_ifs with hnone
  · obtain ⟨hlast, heq⟩ := hdelta hnone.1
    have hlt : s.node.next_handle ≤ next_handle := by
      have henter := SnapshotPublisher.enter_due (hdue ▸ hnone.1)
      rw [henter, heq] at hle
      exact hle
    refine { hi with
      generation := by
        show q.generation + 1 = _
        rw [hgen]
        exact hi.generation
      last := .inr ?_
      numbered := ⟨hbound, fun h hh => ?_⟩ }
    · show s.shown.getLast? = some q.view
      rw [hlast, heq]
      rfl
    · change q.dib.get h ≠ none at hh
      rw [heq] at hh ⊢
      obtain ⟨h0, h1⟩ := hi.numbered.image h hh
      exact ⟨h0, h1.trans_le (PNat.coe_le_coe _ _ |>.mpr hlt)⟩
  · have hview : ∀ node : SnapshotPublisher, node.window = q.window →
        (⟨node.window, v.tree, v.dib, v.focused⟩ : View) = v := by
      rintro node hw
      rw [hw, ← hqwin]
    cases hd : q.due with
    | true =>
        refine hi.sends (congrArg (· + 1) hgen) ?_ ⟨hbound, hpos⟩ ?_
        · exact (hview _ rfl).symm ▸ hwf
        · exact {
            view := List.getElem?_concat_length
            generation := by
              show q.generation + 1 = _
              rw [hgen]
              exact hi.generation
            window := rfl
            dib := rfl
            focused := rfl
            full := fun _ => rfl
            delta := (by rintro ⟨⟩) }
    | false =>
        obtain ⟨hlast, heq⟩ := hdelta hd
        obtain ⟨j, hj⟩ : ∃ j, s.shown.length = j + 1 := by
          cases hl : s.shown with
          | nil =>
              rw [hl] at hlast
              cases hlast
          | cons w l => exact ⟨l.length, rfl⟩
        refine hi.sends (congrArg (· + 1) hgen) ?_ ⟨hbound, hpos⟩ ?_
        · exact (hview _ rfl).symm ▸ hwf
        · exact {
            view := List.getElem?_concat_length
            generation := by
              show q.generation + 1 = _
              rw [hgen]
              exact hi.generation
            window := rfl
            dib := rfl
            focused := rfl
            full := (by rintro ⟨⟩)
            delta := fun _ => by
              refine ⟨j, s.node.view, hj, ?_, ?_, ?_, ?_, ?_⟩
              · show q.generation = j
                have hg := hi.generation
                rw [hgen]
                omega
              · refine getElem?_append_keeps ?_ _
                rw [List.getLast?_eq_getElem?, hj] at hlast
                exact hlast
              · show s.node.window = q.window
                rw [heq]
              · show diff q.tree v.tree = diff s.node.tree v.tree
                rw [heq]
              · exact hkept (hdue ▸ hd) hi.numbered (hmeets (hdue ▸ hd)) }

/-- A packet of the stream arrives: it is folded in or left, and what the App
shows stays what the publisher showed. -/
theorem Inv.delivered (hi : Inv s) {k : ℕ} {pkt : StateSnapshotPacket}
    (hk : s.sent[k]? = some pkt) : ∃ app, apply s.app pkt = some app ∧
      Faithful { s with app } ∧
        ((pkt.full = true → pkt.window_id ≠ s.app.window_id →
          s.app.generation ≤ pkt.generation) → s.app.generation ≤ app.generation) := by
  obtain ⟨v, h⟩ := hi.packets k pkt hk
  have hv : v.WF := hi.wf v (List.mem_of_getElem? h.view)
  have hkeep : Faithful { s with app := s.app } := hi.faithful
  rw [apply]
  split_ifs with hstale hfull hresync hother hgap
  · exact ⟨_, rfl, hkeep, fun _ => le_rfl⟩
  · obtain ⟨app, hfold, _, hgen, hshows⟩ := fold_full hv s.app h.window (h.full hfull) h.dib
      h.focused hfull
    refine ⟨app, hfold, fun _ => ⟨k, v, hgen.trans h.generation, h.view, hshows⟩, fun hlater => ?_⟩
    rw [hgen]
    by_cases hw : pkt.window_id = s.app.window_id
    · by_contra hlt
      exact hstale ⟨hw, (not_le.mp hlt).le⟩
    · exact hlater hfull hw
  · exact ⟨_, rfl, hkeep, fun _ => le_rfl⟩
  · exact ⟨_, rfl, nofun, fun _ => le_rfl⟩
  · exact ⟨_, rfl, nofun, fun _ => le_rfl⟩
  · -- the delta fits the generation that is shown
    rw [Bool.not_eq_true] at hfull hresync
    obtain ⟨j, u, hj, hbase, hu, _, hchanges, hkept⟩ := h.delta hfull
    obtain ⟨j', u', hj', hu', hshows'⟩ := hi.faithful hresync
    rw [ne_eq, not_not] at hgap
    obtain rfl : j = j' := Int.ofNat.inj (hbase.symm.trans (hgap.trans hj'))
    obtain rfl := Option.some.inj (hu.symm.trans hu')
    obtain ⟨app, hfold, _, hgen, hshows⟩ := fold_delta (hi.wf u (List.mem_of_getElem? hu)) hv hkept
      hshows' h.window hchanges h.dib h.focused hfull
    refine ⟨app, hfold, fun _ => ⟨k, v, hgen.trans h.generation, h.view, hshows⟩, fun _ => ?_⟩
    rw [hgen, h.generation, hj', hj]
    omega

theorem Inv.step (hi : Inv s) (e : Event) (hmeets : Meets s e) (hstep : s.step e = some s') :
    Inv s' ∧ s.app.generation ≤ s'.app.generation := by
  have hpush : ∀ r, (s.push r).app = s.app := by
    rintro ⟨_ | _, _⟩ <;> rfl
  cases e with
  | publish elements window_id app_pid focused =>
      obtain rfl := Option.some.inj hstep
      exact ⟨hi.publish elements window_id app_pid focused hmeets, by rw [hpush]⟩
  | request_full =>
      obtain rfl := Option.some.inj hstep
      exact ⟨hi.request_full, by rw [hpush]⟩
  | send_failed =>
      obtain rfl := Option.some.inj hstep
      exact ⟨{ hi with
        last := hi.last.imp (fun h => ⟨h.1, rfl⟩) id
        numbered := ⟨hi.numbered.handle, hi.numbered.image⟩ }, le_rfl⟩
  | deliver k =>
      obtain ⟨pkt, hk, hrest⟩ := Option.bind_eq_some_iff.mp hstep
      obtain ⟨app, happ, heq⟩ := Option.bind_eq_some_iff.mp hrest
      obtain rfl := Option.some.inj heq
      obtain ⟨app', happ', hfaithful, hgen⟩ := hi.delivered hk
      obtain rfl := Option.some.inj (happ.symm.trans happ')
      exact ⟨{ hi with faithful := hfaithful }, hgen (hmeets pkt hk)⟩

end

theorem inv_start (window : Int × Int) (full_every : Int) : Inv (start window full_every) where
  count := rfl
  generation := rfl
  wf := nofun
  last := .inl ⟨rfl, rfl⟩
  numbered := ⟨nofun, fun _ h => absurd rfl h⟩
  packets := nofun
  faithful := nofun

theorem Run.inv {window : Int × Int} {full_every : Int} {s : Stream}
    (h : Run Meets window full_every s) : Inv s := by
  induction h with
  | start => exact inv_start window full_every
  | step e _ hmeets hstep ih => exact (ih.step e hmeets hstep).1

/-- Every packet that has been sent can be taken. -/
theorem Run.takes {window : Int × Int} {full_every : Int} {s : Stream}
    (h : Run Meets window full_every s) {k : ℕ} (hk : k < s.sent.length) :
    ∃ s', s.step (.deliver k) = some s' := by
  obtain ⟨app, happ, _⟩ := h.inv.delivered (List.getElem?_eq_getElem hk)
  refine ⟨{ s with app }, ?_⟩
  rw [Stream.step, List.getElem?_eq_getElem hk]
  show (apply s.app s.sent[k]).bind _ = _
  rw [happ]
  rfl

/-- **The operator sees what the node published**, in every state of a run whose
deltas keep the images of the elements that stay and whose full snapshots of
another window are not late. -/
theorem sees (window : Int × Int) (full_every : Int) (s : Stream)
    (h : Run Meets window full_every s) : s.Faithful ∧
      ∀ e s', Meets s e → s.step e = some s' → s.app.generation ≤ s'.app.generation :=
  ⟨h.inv.faithful, fun e _ hmeets hstep => (h.inv.step e hmeets hstep).2⟩

/-- Each event is as `ok` asks in the state that the ones before it lead to. -/
def Along (ok : Stream → Event → Prop) : Stream → List Event → Prop
  | _, [] => True
  | s, e :: es => ok s e ∧ ∀ s', s.step e = some s' → Along ok s' es

theorem along_any : ∀ (es : List Event) (s : Stream), Along (fun _ _ => True) s es
  | [], _ => trivial
  | _ :: es, _ => ⟨trivial, fun s' _ => along_any es s'⟩

theorem Run.events {ok : Stream → Event → Prop} {window : Int × Int} {full_every : Int} :
    ∀ (es : List Event) {s s' : Stream}, Run ok window full_every s → Along ok s es →
    es.foldlM Stream.step s = some s' → Run ok window full_every s'
  | [], _, _, h, _, heq => Option.some.inj heq ▸ h
  | e :: es, _, _, h, halong, heq => by
      obtain ⟨t, ht, hrest⟩ := Option.bind_eq_some_iff.mp heq
      exact Run.events es (h.step e halong.1 ht) (halong.2 t ht) hrest

def ok_button (bounds : Bounds) (image : Option Visual) : Element :=
  ⟨"Button", "OK", "", bounds, true, true, image⟩

def ok_image : Visual := ⟨8, 8, "rgb", 24, "sha"⟩

theorem keeps_ok_button (p : SnapshotPublisher) (bounds : Bounds) :
    p.Keeps [ok_button bounds (some ok_image)] := by
  intro n hn h _ _
  have hread : read [ok_button bounds (some ok_image)] = [⟨("Button", "OK", "", 0), "Button", "OK",
      "", bounds_of bounds, true, true, some ok_image⟩] := by
    simp [read, read_loop, ok_button, cut, MAX_NODES, MAX_TEXT]
  rw [hread, List.mem_singleton] at hn
  rw [hn]
  nofun

/-- A button that moves and keeps its image. -/
def moved : List Event :=
  [.publish [ok_button (.sized 0 0 9 9) (some ok_image)] none none none,
    .publish [ok_button (.sized 5 5 9 9) (some ok_image)] none none none, .deliver 0, .deliver 1]

theorem meets_moved : Along Meets (start (0, 0) 50) moved := by
  have hsent : ((moved.take 2).foldlM Stream.step (start (0, 0) 50)).map (fun s =>
      (s.app.generation, s.sent.map (fun pkt => (pkt.generation, pkt.full)))) =
      some (-1, [(0, true), (1, false)]) := by decide +kernel
  refine ⟨fun _ => keeps_ok_button _ _, fun s₁ h₁ => ⟨fun _ => keeps_ok_button _ _,
    fun s₂ h₂ => ⟨?_, fun s₃ h₃ => ⟨?_, fun _ _ => trivial⟩⟩⟩⟩
  all_goals
    have hs₂ : (moved.take 2).foldlM Stream.step (start (0, 0) 50) = some s₂ := by
      rw [moved, List.take_succ_cons, List.take_succ_cons, List.take_zero, List.foldlM_cons, h₁]
      show List.foldlM Stream.step s₁ _ = _
      rw [List.foldlM_cons, h₂]
      rfl
    rw [hs₂, Option.map_some, Option.some_inj, Prod.mk.injEq] at hsent
    obtain ⟨hgen, hpkts⟩ := hsent
  · intro pkt hpkt _ _
    have hget := congrArg (fun l => l[0]?) hpkts
    simp only [List.getElem?_map, hpkt, Option.map_some, List.getElem?_cons_zero, Option.some_inj,
      Prod.mk.injEq] at hget
    rw [hgen, hget.1]
    decide
  · intro pkt hpkt hfull _
    have hsame : s₃.sent = s₂.sent := by
      obtain ⟨_, _, hrest⟩ := Option.bind_eq_some_iff.mp h₃
      obtain ⟨_, _, heq⟩ := Option.bind_eq_some_iff.mp hrest
      exact (Option.some.inj heq) ▸ rfl
    rw [hsame] at hpkt
    have hget := congrArg (fun l => l[1]?) hpkts
    simp only [List.getElem?_map, hpkt, Option.map_some, List.getElem?_cons_succ,
      List.getElem?_cons_zero, Option.some_inj, Prod.mk.injEq] at hget
    rw [hget.2] at hfull
    cases hfull

theorem sees_moved : ∃ s : Stream, moved.foldlM Stream.step (start (0, 0) 50) = some s ∧
    s.app.generation = 1 ∧ s.Faithful ∧
    ∀ e s', Meets s e → s.step e = some s' → s.app.generation ≤ s'.app.generation := by
  have hrun : (moved.foldlM Stream.step (start (0, 0) 50)).map (fun s => s.app.generation) =
      some 1 := by decide +kernel
  obtain ⟨s, hs, hgen⟩ := Option.map_eq_some_iff.mp hrun
  exact ⟨s, hs, hgen, sees _ _ s (Run.events moved .start meets_moved hs)⟩

/-- An element with an image, which is then gone. -/
def lost_image : List Event :=
  [.publish [ok_button .absent (some ok_image)] none none none,
    .publish [ok_button .absent none] none none none, .deliver 0, .deliver 1]

/-- A window, another, and the first snapshot after the second. -/
def late_window : List Event :=
  [.publish [] (some 1) none none, .publish [] (some 2) none none, .deliver 1]

/-- The App keeps an image the node no longer shows, and it goes back to an
older window. -/
theorem sees_lost_image :
    (¬ ∀ (window : Int × Int) (full_every : Int) (s : Stream),
      Run (fun _ _ => True) window full_every s → s.Faithful) ∧
    ¬ ∀ (window : Int × Int) (full_every : Int) (s : Stream),
      Run (fun _ _ => True) window full_every s →
      ∀ e s', s.step e = some s' → s.app.generation ≤ s'.app.generation := by
  constructor
  · intro hall
    have hrun : (lost_image.foldlM Stream.step (start (0, 0) 50)).map (fun s =>
        (s.app.needs_resync, s.app.generation, (s.app.dib.get 1).isSome,
          s.shown.map (fun v => (v.dib.get 1).isSome))) =
        some (false, 1, true, [true, false]) := by decide +kernel
    obtain ⟨s, hs, heq⟩ := Option.map_eq_some_iff.mp hrun
    simp only [Prod.mk.injEq] at heq
    obtain ⟨hsync, hgen, hdib, hshown⟩ := heq
    obtain ⟨k, v, hk, hv, hshows⟩ := hall _ _ s (Run.events lost_image .start (along_any _ _) hs) hsync
    obtain rfl : k = 1 := by omega
    have himage := hshows.dib 1
    have hnone : (v.dib.get 1).isSome = false := by
      have hget := congrArg (fun l => l[1]?) hshown
      simp only [List.getElem?_map, hv] at hget
      exact Option.some.inj hget
    rw [himage] at hdib
    change ((v.dib.get 1).map Made.obj).isSome = true at hdib
    rw [Option.isSome_map, hnone] at hdib
    cases hdib
  · intro hall
    have hrun : (late_window.foldlM Stream.step (start (0, 0) 50)).map (fun s =>
        (s.app.generation, (s.step (.deliver 0)).map (fun s' => s'.app.generation))) =
        some (1, some 0) := by decide +kernel
    obtain ⟨s, hs, heq⟩ := Option.map_eq_some_iff.mp hrun
    simp only [Prod.mk.injEq, Option.map_eq_some_iff] at heq
    obtain ⟨hgen, s', hs', hgen'⟩ := heq
    have hle := hall _ _ s (Run.events late_window .start (along_any _ _) hs) (.deliver 0) s' hs'
    omega

end Stream

end Secdogie.Dialogue
