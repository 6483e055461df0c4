/-
# `Secdogie.Graph.Convergence` — the order of arrival does not show

Deltas arrive before their parents, are held, promoted or dropped at
promotion, or refused at insertion.  With room for all of them none of this
shows at the end: the nodes are the deltas that are grounded in the set of
wires (`Secdogie.RankedDag`), and the orphans are the deltas that still miss
a parent.

The invariant that carries the run is `Handled`: a delta that arrived is a
node, or is held, or all its parents are nodes and its lamport is wrong.
What is handled stays handled (`handled_insertWire`), because nodes are
never removed and an orphan leaves the buffer only by promotion.
-/
import Secdogie.Lib.RankedDag
import Secdogie.Graph.DagInvariant

namespace Secdogie.Graph

/-- The parents of a delta, as the links of the ranked dag. -/
def GraphDelta.links (d : GraphDelta) : Finset String := d.parents.toFinset

namespace DagStore

section

variable {P : Prims} {F : Type} [FloatCodec F] {Q : Node → Prop}

/-! ## A name offers one delta -/

omit [FloatCodec F] in
theorem payloadOf_wf {m : List (String × Value F)} {room : Nat} {R : F → Prop}
    (h : (Value.obj m).WF R room) : (payloadOf m).WF R room := by
  cases room with
  | zero => simp [Value.WF] at h
  | succ room =>
      obtain ⟨hsort, hmem⟩ := h
      exact ⟨hsort.filter _, wfMembers_iff.mpr (fun e he =>
        wfMembers_iff.mp hmem e (List.mem_of_mem_filter he))⟩

/-- The envelope of an acceptable delta is well-formed and holds no float. -/
theorem readNode_wf {trust : Trust} {max_bytes : Nat} {wire : String} {n : Node}
    (h : readNode P F trust max_bytes wire = some n) :
    ∃ m, parse (F := F) wire = .ok (.obj m) ∧ n.wire = toStr (.obj m) ∧
      n.cid = sha256Hex P (toBytes (payloadOf m)) ∧ parsePayload P (payloadOf m) = .ok n.delta ∧
      (Value.obj m).WF (fun _ => False) 64 := by
  obtain ⟨-, m, ver, hparse, -, hver, hd, hcid, hwire⟩ := readNode_some h
  refine ⟨m, hparse, hwire, hcid, hd, ?_⟩
  obtain ⟨-, -, hpayload, -⟩ := verify_ok hver
  exact noFloat_envelope hver (hpayload ▸ hd) 64 (wf_of_parseWith hparse)

/-- Acceptable deltas of one cid are one delta. -/
theorem delta_eq_of_cid_eq {wires : Set String} (hfree : CollisionFree P F wires)
    {trust trust' : Trust} {max_bytes max_bytes' : Nat} {n n' : Node}
    (h : CarriedBy P F trust max_bytes wires n) (h' : CarriedBy P F trust' max_bytes' wires n')
    (hcid : n.cid = n'.cid) : n.delta = n'.delta := by
  obtain ⟨w, hw, hread⟩ := h
  obtain ⟨w', hw', hread'⟩ := h'
  obtain ⟨m, hparse, -, hc, hd, hwf⟩ := readNode_wf hread
  obtain ⟨m', hparse', -, hc', hd', hwf'⟩ := readNode_wf hread'
  have hsha : P.sha256 (toBytes (payloadOf m)) = P.sha256 (toBytes (payloadOf m')) :=
    sha256Hex_inj (hc.symm.trans (hcid.trans hc'))
  have hbytes : toBytes (payloadOf m) = toBytes (payloadOf m') :=
    hfree ⟨w, hw, m, hparse, .inl rfl⟩ ⟨w', hw', m', hparse', .inl rfl⟩ hsha
  rw [toBytes_inj (payloadOf_wf hwf) (payloadOf_wf hwf') hbytes] at hd
  exact Except.ok.inj (hd.symm.trans hd')

theorem contains_authenticate {trust trust' : Trust}
    (h : ∀ did, trust.contains did = trust'.contains did) (v : Value F) :
    authenticate P trust v = authenticate P trust' v := by
  unfold authenticate
  simp only [h]

theorem readNode_congr {trust trust' : Trust}
    (h : ∀ did, trust.contains did = trust'.contains did) (max_bytes : Nat) (wire : String) :
    readNode P F trust max_bytes wire = readNode P F trust' max_bytes wire := by
  unfold readNode
  simp only [contains_authenticate h]

/-! ## A rule for promotion -/

/-- What the promotion of one waiter keeps, and what does not look at the
waiting index, a whole promotion keeps. -/
theorem promoteLoop_rule (hkeys : KeysApart P F (opsWhere Q)) {I : DagStore → Prop}
    (hone : ∀ (st : Promotion) (w : String) (todo : List String),
      LoopInv P F Q st.store st.work (w :: todo) → I st.store → I (promoteOne P F st w).store)
    (hwait : ∀ (s : DagStore) (index : StrMap StrSet), I s → I { s with waiting_on := index }) :
    ∀ {fuel : Nat} {st : Promotion}, LoopInv P F Q st.store st.work [] → I st.store →
      I (promoteLoop P F fuel st).store := by
  have hfold : ∀ {todo : List String} {st : Promotion}, LoopInv P F Q st.store st.work todo →
      I st.store → I (todo.foldl (promoteOne P F) st).store := by
    intro todo
    induction todo with
    | nil => exact fun _ hI => hI
    | cons w todo ih =>
        exact fun h hI => ih (loopInv_promoteOne hkeys h) (hone _ w todo h hI)
  intro fuel
  induction fuel with
  | zero => exact fun _ hI => hI
  | succ fuel ih =>
      intro st h hI
      cases hwork : st.work with
      | nil => simpa [promoteLoop, hwork] using hI
      | cons arrived work =>
          rw [promoteLoop, hwork]
          rw [hwork] at h
          refine ih (loopInv_promoteRound hkeys h) ?_
          cases hidx : st.store.waiting_on[arrived]? with
          | none => rwa [promoteRound_none hidx]
          | some ws =>
              rw [promoteRound_some hidx]
              exact hfold (loopInv_promoteRound_start h hidx) (hwait _ _ hI)

/-! ## Handled deltas -/

/-- The store has dealt with the delta: it is a node, it is held, or its
parents are nodes and refute its lamport. -/
def Handled (s : DagStore) (n : Node) : Prop :=
  n.cid ∈ s.nodes ∨ n.cid ∈ s.orphans ∨
    ((∀ p ∈ n.delta.parents, p ∈ s.nodes) ∧ n.delta.lamport ≠ s.expectedLamport n.delta)

/-- The store has room for every delta that `Q` admits. -/
def Fits (Q : Node → Prop) (s : DagStore) : Prop :=
  ∃ cids : Finset String, (∀ n, Q n → n.cid ∈ cids) ∧ cids.card ≤ s.cfg.max_nodes ∧
    cids.card ≤ s.cfg.max_orphans

/-- Nodes are never removed nor changed. -/
def Grows (s s' : DagStore) : Prop :=
  ∀ (c : String) n, s.nodes[c]? = some n → s'.nodes[c]? = some n

theorem Grows.mem {s s' : DagStore} (h : Grows s s') {c : String} (hc : c ∈ s.nodes) :
    c ∈ s'.nodes := by
  obtain ⟨n, hn⟩ := StrMap.mem_iff_get.mp hc
  exact StrMap.mem_of_get (h c n hn)

theorem grows_insert {s s' : DagStore} {n : Node} (hnew : n.cid ∉ s.nodes)
    (heq : s'.nodes = s.nodes.insert n.cid n) : Grows s s' := by
  intro c x hx
  have hne : n.cid ≠ c := by
    rintro rfl
    exact hnew (StrMap.mem_of_get hx)
  simpa [heq, hne] using hx

/-- Once all parents are nodes the lamport asked for is settled. -/
theorem Grows.expectedLamport {s s' : DagStore} (h : Grows s s') {d : GraphDelta}
    (hp : ∀ p ∈ d.parents, p ∈ s.nodes) : s'.expectedLamport d = s.expectedLamport d := by
  rw [expectedLamport_eq, expectedLamport_eq]
  congr 1
  refine Finset.sup_congr rfl (fun p hpd => ?_)
  obtain ⟨n, hn⟩ := StrMap.mem_iff_get.mp (hp p (List.mem_toFinset.mp hpd))
  simp [lamportOf, hn, h p n hn]

theorem Handled.grows {s s' : DagStore} {n : Node} (h : Handled s n) (hg : Grows s s')
    (horphan : n.cid ∈ s.orphans → Handled s' n) : Handled s' n := by
  rcases h with h | h | ⟨hp, hl⟩
  · exact .inl (hg.mem h)
  · exact horphan h
  · exact .inr (.inr ⟨fun p hpd => hg.mem (hp p hpd), by rwa [hg.expectedLamport hp]⟩)

theorem Fits.node_room {s : DagStore} {n : Node} (h : Fits Q s) (hs : NodeInv P F Q s)
    (hQ : Q n) (hnew : n.cid ∉ s.nodes) : s.nodes.size < s.cfg.max_nodes := by
  obtain ⟨cids, hcids, hmax, -⟩ := h
  have hle : (s.nodes.insert n.cid n).size ≤ cids.card := StrMap.size_le_card (fun c hc => by
    rcases StrMap.mem_insert.mp hc with rfl | hc
    · exact hcids n hQ
    · obtain ⟨x, hx⟩ := StrMap.mem_iff_get.mp hc
      exact hs.node_cid c x hx ▸ hcids x (hs.known c x (.inl hx)))
  rw [StrMap.size_insert_new hnew] at hle
  omega

theorem Fits.orphan_room {s : DagStore} {n : Node} {work todo : List String} (h : Fits Q s)
    (hs : LoopInv P F Q s work todo) (hQ : Q n) (hnew : n.cid ∉ s.orphans) :
    s.orphans.size < s.cfg.max_orphans := by
  obtain ⟨cids, hcids, -, hmax⟩ := h
  have hle : (s.orphans.insert n.cid n).size ≤ cids.card := StrMap.size_le_card (fun c hc => by
    rcases StrMap.mem_insert.mp hc with rfl | hc
    · exact hcids n hQ
    · obtain ⟨x, hx⟩ := StrMap.mem_iff_get.mp hc
      exact hs.orphans.orphan_cid c x hx ▸ hcids x (hs.nodes.known c x (.inr hx)))
  rw [StrMap.size_insert_new hnew] at hle
  omega

theorem grows_promoteOne {st : Promotion} {w : String} {todo : List String}
    (h : LoopInv P F Q st.store st.work (w :: todo)) :
    Grows st.store (promoteOne P F st w).store := by
  rcases promoteOne_cases (P := P) (F := F) st w with
    ⟨heq, -⟩ | ⟨o, ho, -, ⟨e, -, heq⟩ | ⟨s', hacc, heq⟩⟩
  · rw [heq]
    exact fun _ _ hx => hx
  · rw [heq, forgetOrphan_eq ho]
    exact fun _ _ hx => hx
  · obtain ⟨-, -, rfl⟩ := accept_ok hacc
    rw [heq, forgetOrphan_eq ho]
    refine grows_insert ?_ rfl
    rw [h.orphans.orphan_cid w o ho]
    exact h.orphans.disjoint w (StrMap.mem_of_get ho)

theorem handled_promoteOne (huniq : ∀ n n', Q n → Q n' → n.cid = n'.cid → n.delta = n'.delta)
    {st : Promotion} {w : String} {todo : List String} {n : Node} (hQ : Q n)
    (h : LoopInv P F Q st.store st.work (w :: todo)) (hfits : Fits Q st.store)
    (hn : Handled st.store n) : Handled (promoteOne P F st w).store n := by
  have hgrows := grows_promoteOne h
  rcases promoteOne_cases (P := P) (F := F) st w with
    ⟨heq, -⟩ | ⟨o, ho, hready, hres⟩
  · rwa [heq]
  refine hn.grows hgrows (fun horphan => ?_)
  have hcid : o.cid = w := h.orphans.orphan_cid w o ho
  have hQo : Q o := h.nodes.known w o (.inr ho)
  by_cases hw : n.cid = w
  · -- `n` is the waiter itself: it becomes a node or its lamport is wrong
    have hdelta : n.delta = o.delta := huniq n o hQ hQo (hw.trans hcid.symm)
    rcases hres with ⟨e, hacc, heq⟩ | ⟨s', hacc, heq⟩
    · rw [heq]
      rw [forgetOrphan_eq ho] at hacc ⊢
      refine .inr (.inr ⟨hdelta ▸ hready, ?_⟩)
      rcases accept_error hacc with hbad | hfull
      · rw [hdelta]
        exact hbad
      · have hnew : o.cid ∉ st.store.nodes :=
          hcid ▸ h.orphans.disjoint w (StrMap.mem_of_get ho)
        have := hfits.node_room h.nodes hQo hnew
        exact absurd hfull (by simpa using this)
    · obtain ⟨-, -, rfl⟩ := accept_ok hacc
      rw [heq]
      exact .inl (StrMap.mem_insert.mpr (.inl (hcid.trans hw.symm)))
  · -- another orphan stays held
    refine .inr (.inl ?_)
    have hstay : n.cid ∈ (st.store.forgetOrphan w).orphans := by
      rw [forgetOrphan_eq ho, StrMap.mem_erase]
      exact ⟨Ne.symm hw, horphan⟩
    rcases hres with ⟨e, -, heq⟩ | ⟨s', hacc, heq⟩
    · rwa [heq]
    · obtain ⟨-, -, rfl⟩ := accept_ok hacc
      rwa [heq]

/-- Room is a matter of the limits alone. -/
theorem Fits.sameSetup {s s' : DagStore} (h : Fits Q s) (hs : SameSetup s s') : Fits Q s' := by
  obtain ⟨cids, h1, h2, h3⟩ := h
  exact ⟨cids, h1, hs.2 ▸ h2, hs.2 ▸ h3⟩

theorem grows_promote (hkeys : KeysApart P F (opsWhere Q)) {s : DagStore} {cid : String}
    (h : LoopInv P F Q s [cid] []) : Grows s (promote P F s cid).store :=
  promoteLoop_rule (I := Grows s) hkeys
    (fun _ _ _ hinv hI c n hn => grows_promoteOne hinv c n (hI c n hn))
    (fun _ _ hI => hI) h (fun _ _ hn => hn)

theorem handled_promote (hkeys : KeysApart P F (opsWhere Q))
    (huniq : ∀ n n', Q n → Q n' → n.cid = n'.cid → n.delta = n'.delta) {s : DagStore}
    {cid : String} {n : Node} (hQ : Q n) (h : LoopInv P F Q s [cid] []) (hfits : Fits Q s)
    (hn : Handled s n) : Handled (promote P F s cid).store n :=
  (promoteLoop_rule (I := fun s' => SameSetup s s' ∧ Handled s' n) hkeys
    (fun st w _ hinv hI => ⟨hI.1.trans (sameSetup_promoteOne st w),
      handled_promoteOne huniq hQ hinv (hfits.sameSetup hI.1) hI.2⟩)
    (fun _ _ hI => hI) h ⟨⟨rfl, rfl⟩, hn⟩).2

/-! ## One envelope, any number of envelopes -/

theorem grows_insertNode (hkeys : KeysApart P F (opsWhere Q)) {s : DagStore} {n : Node}
    (hQ : Q n) (hnew : s.knows n.cid = false) (h : LoopInv P F Q s [] []) :
    Grows s (insertNode P F s n).2 := by
  have hknow : n.cid ∉ s.nodes ∧ n.cid ∉ s.orphans := by simpa [knows] using hnew
  rcases insertNode_cases (P := P) (F := F) s n with ⟨-, heq⟩ | ⟨-, -, heq⟩ | ⟨hnil, s', hacc, heq⟩
  · rw [heq]
    have hnodes := (hold_frame h.orphans n).1
    exact fun c x hx => hnodes ▸ hx
  · rw [heq]
    exact fun _ _ hx => hx
  · have hinv : LoopInv P F Q s' [n.cid] [] :=
      ⟨nodeInv_accept hkeys hQ hknow.1 (missing_eq_nil.mp hnil) h.nodes hacc,
        orphanInv_accept hknow.1 hknow.2 h.orphans hacc⟩
    have hg := grows_promote hkeys hinv
    obtain ⟨-, -, rfl⟩ := accept_ok hacc
    rw [heq]
    exact fun c x hx => hg c x (grows_insert hknow.1 rfl c x hx)

/-- A full buffer is the only reason to evict. -/
theorem evict_eq {s : DagStore} (h : s.orphans.size < s.cfg.max_orphans) : s.evict = s := by
  unfold evict
  exact if_neg (by omega)

theorem handled_insertNode (hkeys : KeysApart P F (opsWhere Q))
    (huniq : ∀ n n', Q n → Q n' → n.cid = n'.cid → n.delta = n'.delta) {s : DagStore} {x n : Node}
    (hx : Q x) (hnew : s.knows x.cid = false) (h : LoopInv P F Q s [] []) (hfits : Fits Q s)
    (hQ : Q n) (hn : Handled s n ∨ n = x) : Handled (insertNode P F s x).2 n := by
  have hknow : x.cid ∉ s.nodes ∧ x.cid ∉ s.orphans := by simpa [knows] using hnew
  rcases insertNode_cases (P := P) (F := F) s x with ⟨-, heq⟩ | ⟨hnil, ⟨e, hacc⟩, heq⟩ | ⟨hnil, s', hacc, heq⟩
  · have hnodes := (hold_frame h.orphans x).1
    have horphans : (s.hold x).orphans = s.orphans.insert x.cid x := by
      rw [hold, evict_eq (hfits.orphan_room h hx hknow.2)]
    rw [heq]
    rcases hn with hn | rfl
    · refine hn.grows (fun c y hy => hnodes ▸ hy) (fun horphan => .inr (.inl ?_))
      rw [horphans]
      exact StrMap.mem_insert.mpr (.inr horphan)
    · refine .inr (.inl ?_)
      rw [horphans]
      exact StrMap.mem_insert.mpr (.inl rfl)
  · rw [heq]
    rcases hn with hn | rfl
    · exact hn
    · refine .inr (.inr ⟨missing_eq_nil.mp hnil, ?_⟩)
      rcases accept_error hacc with hbad | hfull
      · exact hbad
      · have := hfits.node_room h.nodes hx hknow.1
        omega
  · have hinv : LoopInv P F Q s' [x.cid] [] :=
      ⟨nodeInv_accept hkeys hx hknow.1 (missing_eq_nil.mp hnil) h.nodes hacc,
        orphanInv_accept hknow.1 hknow.2 h.orphans hacc⟩
    rw [heq]
    obtain ⟨-, -, hs'⟩ := accept_ok hacc
    have hsetup : SameSetup s s' := by
      rw [hs']
      exact ⟨rfl, rfl⟩
    refine handled_promote hkeys huniq hQ hinv (hfits.sameSetup hsetup) ?_
    have hnodes : s'.nodes = s.nodes.insert x.cid x := by rw [hs']
    rcases hn with hn | rfl
    · refine hn.grows (grows_insert hknow.1 hnodes) (fun horphan => .inr (.inl ?_))
      rw [hs']
      exact horphan
    · refine .inl ?_
      rw [hnodes]
      exact StrMap.mem_insert.mpr (.inl rfl)

/-- One envelope: its delta is handled afterwards, and so is what was. -/
theorem handled_insertWire (hkeys : KeysApart P F (opsWhere Q))
    (huniq : ∀ n n', Q n → Q n' → n.cid = n'.cid → n.delta = n'.delta) {s : DagStore}
    {wire : String} {n : Node} (h : LoopInv P F Q s [] []) (hfits : Fits Q s) (hQ : Q n)
    (hQw : ∀ x, readNode P F s.trust s.cfg.max_envelope_bytes wire = some x → Q x)
    (hn : Handled s n ∨ readNode P F s.trust s.cfg.max_envelope_bytes wire = some n) :
    Handled (insertWire P F s wire).2 n := by
  rw [insertWire_store]
  cases hread : readNode P F s.trust s.cfg.max_envelope_bytes wire with
  | none => exact hn.resolve_right (by simp [hread])
  | some x =>
      dsimp only
      split_ifs with hknow
      · rcases hn with hn | hn
        · exact hn
        · obtain rfl := Option.some.inj (hread.symm.trans hn)
          simp only [knows, StrMap.contains_eq, Bool.or_eq_true, decide_eq_true_eq] at hknow
          exact hknow.elim .inl (fun hk => .inr (.inl hk))
      · refine handled_insertNode hkeys huniq (hQw x hread) (by simpa using hknow) h hfits hQ ?_
        exact hn.imp_right (fun hn => (Option.some.inj (hread.symm.trans hn)).symm)

/-- After any sequence of envelopes every delta among them is handled. -/
theorem handled_insertWires (hkeys : KeysApart P F (opsWhere Q))
    (huniq : ∀ n n', Q n → Q n' → n.cid = n'.cid → n.delta = n'.delta) :
    ∀ {wires : List String} {s : DagStore} {n : Node},
    LoopInv P F Q s [] [] → Fits Q s → Q n →
    (∀ w ∈ wires, ∀ x, readNode P F s.trust s.cfg.max_envelope_bytes w = some x → Q x) →
    (Handled s n ∨ ∃ w ∈ wires, readNode P F s.trust s.cfg.max_envelope_bytes w = some n) →
    Handled (insertWires P F s wires) n
  | [], _, _, _, _, _, _, hn => hn.resolve_right (by simp)
  | w :: wires, s, n, h, hfits, hQ, hQw, hn => by
      have hsetup := sameSetup_insertWire (P := P) (F := F) h.orphans w
      have hstep := loopInv_insertWire hkeys (hQw w (by simp)) h
      change Handled (insertWires P F (insertWire P F s w).2 wires) n
      refine handled_insertWires hkeys huniq hstep (hfits.sameSetup hsetup) hQ ?_ ?_
      · rw [hsetup.1, hsetup.2]
        exact fun w' hw' => hQw w' (List.mem_cons_of_mem _ hw')
      · rw [hsetup.1, hsetup.2]
        rcases hn with hn | ⟨w', hw', hread⟩
        · exact .inl (handled_insertWire hkeys huniq h hfits hQ (hQw w (by simp)) (.inl hn))
        · rcases List.mem_cons.mp hw' with rfl | hw'
          · exact .inl (handled_insertWire hkeys huniq h hfits hQ (hQw w' (by simp)) (.inr hread))
          · exact .inr ⟨w', hw', hread⟩

end

/-! ## What a run settles to -/

/-- The delta behind each cid. -/
def deltas (m : StrMap Node) (c : String) : Option GraphDelta := (m[c]?).map Node.delta

/-- What a set of wires offers: the acceptable deltas in it, under their
cids. -/
def Offer (P : Prims) (F : Type) [FloatCodec F] (trust : Trust) (max_bytes : Nat)
    (wires : Set String) (c : String) (d : GraphDelta) : Prop :=
  ∃ n, CarriedBy P F trust max_bytes wires n ∧ n.cid = c ∧ n.delta = d

theorem deltas_eq_some {m : StrMap Node} {c : String} {d : GraphDelta} :
    deltas m c = some d ↔ ∃ n, m[c]? = some n ∧ n.delta = d := by
  simp [deltas]

theorem mem_iff_deltas {m : StrMap Node} {c : String} : c ∈ m ↔ ∃ d, deltas m c = some d := by
  rw [StrMap.mem_iff_get]
  constructor
  · rintro ⟨n, hn⟩
    exact ⟨n.delta, deltas_eq_some.mpr ⟨n, hn, rfl⟩⟩
  · rintro ⟨d, hd⟩
    obtain ⟨n, hn, -⟩ := deltas_eq_some.mp hd
    exact ⟨n, hn⟩

theorem lamportOf_eq {m : StrMap Node} {c : String} {d : GraphDelta} (h : deltas m c = some d) :
    lamportOf m c = d.lamport := by
  obtain ⟨n, hn, rfl⟩ := deltas_eq_some.mp h
  simp [lamportOf, hn]

section

variable {P : Prims} {F : Type} [FloatCodec F]

/-- A run over `wires` into an empty store that has room for them. -/
structure RoomyRun (P : Prims) (F : Type) [FloatCodec F] (trust : Trust) (max_bytes : Nat)
    (wires : Set String) (s : DagStore) : Prop where
  inv : LoopInv P F (CarriedBy P F trust max_bytes wires) s [] []
  handled : ∀ n, CarriedBy P F trust max_bytes wires n → Handled s n

/-- The nodes of such a run are what is grounded in the wires. -/
theorem RoomyRun.settled {trust : Trust} {max_bytes : Nat} {wires : Set String} {s : DagStore}
    (hfree : CollisionFree P F wires) (h : RoomyRun P F trust max_bytes wires s) :
    RankedDag.Settled GraphDelta.links GraphDelta.lamport (Offer P F trust max_bytes wires)
      (deltas s.nodes) where
  offered := fun c d hd => by
    obtain ⟨n, hn, rfl⟩ := deltas_eq_some.mp hd
    exact ⟨n, h.inv.nodes.known c n (.inl hn), h.inv.nodes.node_cid c n hn, rfl⟩
  linked := fun c d hd p hp => by
    obtain ⟨n, hn, rfl⟩ := deltas_eq_some.mp hd
    exact mem_iff_deltas.mp (h.inv.nodes.parent_node c n hn p (List.mem_toFinset.mp hp))
  ranked := fun c d hd f hf => by
    obtain ⟨n, hn, rfl⟩ := deltas_eq_some.mp hd
    rw [h.inv.nodes.lamport c n hn]
    exact congrArg (1 + ·) (Finset.sup_congr rfl (fun p hp => lamportOf_eq (hf p hp)))
  complete := fun c d f ho hf hrank => by
    obtain ⟨n, hcar, rfl, rfl⟩ := ho
    have hparents : ∀ p ∈ n.delta.parents, p ∈ s.nodes := fun p hp =>
      mem_iff_deltas.mpr ⟨f p, hf p (List.mem_toFinset.mpr hp)⟩
    rcases h.handled n hcar with hnode | horphan | ⟨-, hbad⟩
    · obtain ⟨x, hx⟩ := StrMap.mem_iff_get.mp hnode
      have hcid := h.inv.nodes.node_cid n.cid x hx
      exact deltas_eq_some.mpr ⟨x, hx,
        delta_eq_of_cid_eq hfree (h.inv.nodes.known n.cid x (.inl hx)) hcar hcid⟩
    · obtain ⟨x, hx⟩ := StrMap.mem_iff_get.mp horphan
      have hcid := h.inv.orphans.orphan_cid n.cid x hx
      have hdelta := delta_eq_of_cid_eq hfree (h.inv.nodes.known n.cid x (.inr hx)) hcar hcid
      obtain ⟨p, hp, hpn⟩ := h.inv.consistent.misses n.cid x hx
      exact absurd (hparents p (hdelta ▸ hp)) hpn
    · refine absurd ?_ hbad
      rw [hrank, expectedLamport_eq]
      exact congrArg (1 + ·)
        (Finset.sup_congr rfl (fun p hp => (lamportOf_eq (hf p hp)).symm))

/-- The orphans of such a run are the deltas on offer that miss a parent. -/
theorem RoomyRun.orphan_iff {trust : Trust} {max_bytes : Nat} {wires : Set String} {s : DagStore}
    (hfree : CollisionFree P F wires) (h : RoomyRun P F trust max_bytes wires s) {c : String}
    {d : GraphDelta} : deltas s.orphans c = some d ↔
      Offer P F trust max_bytes wires c d ∧ ∃ p ∈ d.parents, deltas s.nodes p = none := by
  have hnone : ∀ p, deltas s.nodes p = none ↔ p ∉ s.nodes := fun p => by
    simp [mem_iff_deltas, Option.eq_none_iff_forall_ne_some]
  simp only [hnone]
  constructor
  · intro hd
    obtain ⟨o, ho, rfl⟩ := deltas_eq_some.mp hd
    exact ⟨⟨o, h.inv.nodes.known c o (.inr ho), h.inv.orphans.orphan_cid c o ho, rfl⟩,
      h.inv.consistent.misses c o ho⟩
  · rintro ⟨⟨n, hcar, rfl, rfl⟩, p, hp, hpn⟩
    have hcur : ∀ x, CarriedBy P F trust max_bytes wires x → x.cid = n.cid → x.delta = n.delta :=
      fun x hx hcid => delta_eq_of_cid_eq hfree hx hcar hcid
    rcases h.handled n hcar with hnode | horphan | ⟨hparents, -⟩
    · obtain ⟨x, hx⟩ := StrMap.mem_iff_get.mp hnode
      have hdelta := hcur x (h.inv.nodes.known _ x (.inl hx)) (h.inv.nodes.node_cid _ x hx)
      exact absurd (h.inv.nodes.parent_node _ x hx p (hdelta ▸ hp)) hpn
    · obtain ⟨x, hx⟩ := StrMap.mem_iff_get.mp horphan
      exact deltas_eq_some.mpr ⟨x, hx,
        hcur x (h.inv.nodes.known _ x (.inr hx)) (h.inv.orphans.orphan_cid _ x hx)⟩
    · exact absurd (hparents p hp) hpn

theorem mem_heads_iff {Q : Node → Prop} {s : DagStore} (h : NodeInv P F Q s) {c : String} :
    c ∈ s.heads ↔ (∃ d, deltas s.nodes c = some d) ∧
      ∀ c' d, deltas s.nodes c' = some d → c ∉ d.parents := by
  rw [h.heads, mem_iff_deltas]
  refine and_congr_right (fun _ => ⟨fun hno c' d hd => ?_, fun hno c' n hn => ?_⟩)
  · obtain ⟨n, hn, rfl⟩ := deltas_eq_some.mp hd
    exact hno c' n hn
  · exact hno c' n.delta (deltas_eq_some.mpr ⟨n, hn, rfl⟩)

theorem opsOf_eq (m : StrMap Node) : opsOf m = {op | ∃ c d, deltas m c = some d ∧ op ∈ d.ops} := by
  ext op
  constructor
  · rintro ⟨c, n, hn, hop⟩
    exact ⟨c, n.delta, deltas_eq_some.mpr ⟨n, hn, rfl⟩, hop⟩
  · rintro ⟨c, d, hd, hop⟩
    obtain ⟨n, hn, rfl⟩ := deltas_eq_some.mp hd
    exact ⟨c, n, hn, hop⟩

/-- Stores with the same deltas as nodes have the same heads and view. -/
theorem heads_view_eq {Q Q' : Node → Prop} {s s' : DagStore} (h : NodeInv P F Q s)
    (h' : NodeInv P F Q' s') (heq : deltas s.nodes = deltas s'.nodes) :
    s.heads = s'.heads ∧ s.view = s'.view := by
  refine ⟨StrSet.ext (fun c => ?_), ?_⟩
  · rw [mem_heads_iff h, mem_heads_iff h', heq]
  · have hops : opsOf s.nodes = opsOf s'.nodes := by rw [opsOf_eq, opsOf_eq, heq]
    exact TopologyView.isUnion_unique h.view (hops ▸ h'.view)

/-- Maps with the same deltas behind their cids are the same, where a cid
stands for one envelope. -/
theorem same_of_deltas {C : Node → Prop} {m m' : StrMap Node}
    (hm : ∀ (c : String) n, m[c]? = some n → C n ∧ n.cid = c)
    (hm' : ∀ (c : String) n, m'[c]? = some n → C n ∧ n.cid = c)
    (hone : ∀ n n', C n → C n' → n.cid = n'.cid → n = n')
    (heq : ∀ c, deltas m c = deltas m' c) : m = m' := by
  refine StrMap.ext (fun c => ?_)
  have hc := heq c
  unfold deltas at hc
  cases hn : m[c]? with
  | none => simpa [hn, eq_comm] using hc
  | some n =>
      cases hn' : m'[c]? with
      | none => simp [hn, hn'] at hc
      | some n' =>
          obtain ⟨h1, h2⟩ := hm c n hn
          obtain ⟨h3, h4⟩ := hm' c n' hn'
          rw [hone n n' h1 h3 (h2.trans h4.symm)]

/-- Every arrival order of a finite set of wires, duplicates included, is
such a run. -/
theorem roomyRun_insertWires {cfg : Config} {s : DagStore} {wires : Finset String}
    {arrivals : List String} (hnew : new cfg = .ok s) (harrive : ∀ w, w ∈ arrivals ↔ w ∈ wires)
    (hnodes : wires.card ≤ cfg.max_nodes) (horphans : wires.card ≤ cfg.max_orphans)
    (hfree : CollisionFree P F (wires : Set String)) :
    RoomyRun P F s.trust cfg.max_envelope_bytes wires (insertWires P F s arrivals) := by
  obtain ⟨trust, -, rfl⟩ := new_ok hnew
  have hinit : LoopInv P F (CarriedBy P F trust cfg.max_envelope_bytes wires)
      { trust := trust, cfg := cfg } [] [] := loopInv_new trust cfg
  have hcar : ∀ w ∈ arrivals, ∀ x, readNode P F trust cfg.max_envelope_bytes w = some x →
      CarriedBy P F trust cfg.max_envelope_bytes wires x :=
    fun w hw x hx => ⟨w, (harrive w).mp hw, hx⟩
  have hfits : Fits (CarriedBy P F trust cfg.max_envelope_bytes wires)
      { trust := trust, cfg := cfg } := by
    refine ⟨wires.image (fun w => ((readNode P F trust cfg.max_envelope_bytes w).map
      Node.cid).getD ""), ?_, Finset.card_image_le.trans hnodes,
      Finset.card_image_le.trans horphans⟩
    rintro n ⟨w, hw, hn⟩
    exact Finset.mem_image.mpr ⟨w, hw, by simp [hn]⟩
  refine ⟨(loopInv_insertWires (keysApart_carried hfree) (s := { trust := trust, cfg := cfg })
    hcar hinit).2, fun n hn => ?_⟩
  obtain ⟨w, hw, hread⟩ := hn
  exact handled_insertWires (keysApart_carried hfree)
    (fun x y hx hy => delta_eq_of_cid_eq hfree hx hy) hinit hfits ⟨w, hw, hread⟩ hcar
    (.inr ⟨w, (harrive w).mpr hw, hread⟩)

end

end DagStore

end Secdogie.Graph
