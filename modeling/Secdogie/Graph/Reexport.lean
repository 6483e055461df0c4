/-
# `Secdogie.Graph.Reexport` — one delta, one cid, wherever it travels

The reading and the printing of a payload are inverse to each other
(`Secdogie.Graph.DeltaRoundTrip`).  So the cid a store files a node under,
the digest of the payload that arrived, is the digest of the payload that the
node's delta prints (`Reached.cids`), whatever else the store holds; and the
envelope it passes on is read by any other store as the same node
(`reexport`).

The invariant is `Filed`: nodes and orphans stand under their own cids and
were all read from an envelope.
-/
import Secdogie.Graph.LongHistory

namespace Secdogie.Graph

namespace DagStore

section

variable {P : Prims} {F : Type} [FloatCodec F] {Q : Node → Prop} {s s' : DagStore}

/-! ## What a store holds is what it was given -/

/-- Every node and every orphan is filed under its cid and has the
property. -/
def Filed (Q : Node → Prop) (s : DagStore) : Prop :=
  ∀ (c : String) n, s.nodes[c]? = some n ∨ s.orphans[c]? = some n → n.cid = c ∧ Q n

/-- Fewer orphans are still filed. -/
theorem Filed.fewer (h : Filed Q s) (hnodes : s'.nodes = s.nodes)
    (horphans : ∀ (c : String) o, s'.orphans[c]? = some o → s.orphans[c]? = some o) :
    Filed Q s' :=
  fun c n hn => h c n (hn.imp (fun hx => hnodes ▸ hx) (horphans c n))

theorem forgetOrphan_sub (s : DagStore) (cid : String) : (s.forgetOrphan cid).nodes = s.nodes ∧
    ∀ (c : String) o, (s.forgetOrphan cid).orphans[c]? = some o → s.orphans[c]? = some o := by
  cases ho : s.orphans[cid]? with
  | none =>
      have heq : (s.forgetOrphan cid).nodes = s.nodes ∧
          (s.forgetOrphan cid).orphans = s.orphans := by simp [forgetOrphan, ho]
      exact ⟨heq.1, fun c o hc => heq.2 ▸ hc⟩
  | some x =>
      rw [forgetOrphan_eq ho]
      refine ⟨rfl, fun c o hc => ?_⟩
      rw [StrMap.get_erase] at hc
      split_ifs at hc
      exact hc

theorem Filed.accept {n : Node} (h : Filed Q s) (hn : Q n)
    (hacc : DagStore.accept P F s n = .ok s') : Filed Q s' := by
  obtain ⟨-, -, rfl⟩ := accept_ok hacc
  rintro c x (hx | hx)
  · rw [StrMap.get_insert] at hx
    split_ifs at hx with heq
    · obtain rfl := Option.some.inj hx
      exact ⟨heq, hn⟩
    · exact h c x (.inl hx)
  · exact h c x (.inr hx)

theorem Filed.hold {n : Node} (h : Filed Q s) (hn : Q n) : Filed Q (s.hold n) := by
  have hevict : Filed Q s.evict := by
    unfold evict
    split_ifs
    · split
      · exact h
      · exact h.fewer (forgetOrphan_sub _ _).1 (forgetOrphan_sub _ _).2
    · exact h
  rintro c x (hx | hx)
  · exact hevict c x (.inl hx)
  · simp only [DagStore.hold, StrMap.get_insert] at hx
    split_ifs at hx with heq
    · obtain rfl := Option.some.inj hx
      exact ⟨heq, hn⟩
    · exact hevict c x (.inr hx)

theorem Filed.promoteOne {st : Promotion} (h : Filed Q st.store) (w : String) :
    Filed Q (DagStore.promoteOne P F st w).store := by
  rcases promoteOne_cases (P := P) (F := F) st w with
    ⟨heq, -⟩ | ⟨o, ho, -, ⟨e, -, heq⟩ | ⟨s', hacc, heq⟩⟩
  · rwa [heq]
  · rw [heq]
    exact h.fewer (forgetOrphan_sub _ _).1 (forgetOrphan_sub _ _).2
  · rw [heq]
    exact (h.fewer (forgetOrphan_sub _ _).1 (forgetOrphan_sub _ _).2).accept
      (h w o (.inr ho)).2 hacc

theorem Filed.promoteRound {st : Promotion} (h : Filed Q st.store) (arrived : String)
    (work : List String) : Filed Q (DagStore.promoteRound P F st arrived work).store := by
  have hfold : ∀ {todo : List String} {st : Promotion}, Filed Q st.store →
      Filed Q (todo.foldl (DagStore.promoteOne P F) st).store := by
    intro todo
    induction todo with
    | nil => exact fun h => h
    | cons w todo ih => exact fun h => ih (h.promoteOne w)
  unfold DagStore.promoteRound
  dsimp only
  split
  · exact h
  · exact hfold h

theorem Filed.promoteLoop : ∀ {fuel : Nat} {st : Promotion}, Filed Q st.store →
    Filed Q (DagStore.promoteLoop P F fuel st).store
  | 0, _, h => h
  | fuel + 1, st, h => by
      rw [DagStore.promoteLoop]
      split
      · exact h
      · exact Filed.promoteLoop (h.promoteRound _ _)

theorem Filed.insertNode {n : Node} (h : Filed Q s) (hn : Q n) :
    Filed Q (DagStore.insertNode P F s n).2 := by
  rcases insertNode_cases (P := P) (F := F) s n with ⟨-, heq⟩ | ⟨-, -, heq⟩ | ⟨-, s', hacc, heq⟩
  · rw [heq]
    exact h.hold hn
  · rwa [heq]
  · rw [heq]
    exact Filed.promoteLoop (h.accept hn hacc)

/-- Read from some envelope, by a store of some trust and some limit. -/
def Read (P : Prims) (F : Type) [FloatCodec F] (n : Node) : Prop :=
  ∃ trust max_bytes wire, readNode P F trust max_bytes wire = some n

theorem filed_insertWire (h : Filed (Read P F) s) (wire : String) :
    Filed (Read P F) (insertWire P F s wire).2 := by
  rw [insertWire_store]
  split
  · exact h
  next n hread =>
  split_ifs
  · exact h
  · exact h.insertNode ⟨_, _, wire, hread⟩

theorem filed_insertWires : ∀ (wires : List String) {s : DagStore}, Filed (Read P F) s →
    Filed (Read P F) (insertWires P F s wires)
  | [], _, h => h
  | w :: wires, s, h => filed_insertWires wires (s := (insertWire P F s w).2) (filed_insertWire h w)

/-- The cid of a node that was read is the digest of what its delta prints. -/
theorem Read.cid {n : Node} (h : Read P F n) :
    n.cid = cidOf P (payloadValue n.delta : Value F) := by
  obtain ⟨trust, max_bytes, wire, hread⟩ := h
  obtain ⟨m, -, -, hcid, hd, hwf⟩ := readNode_wf hread
  rw [hcid, cidOf, (parsePayload_inv (payloadOf_wf hwf) hd).2]

/-- An envelope that was read is passed on no longer than it came. -/
theorem readNode_size {trust : Trust} {max_bytes : Nat} {wire : String} {n : Node}
    (h : readNode P F trust max_bytes wire = some n) : n.wire.utf8ByteSize ≤ max_bytes := by
  obtain ⟨hle, m, ver, hparse, -, hver, hd, -, hwire⟩ := readNode_some h
  obtain ⟨-, -, hpayload, -⟩ := verify_ok hver
  rw [hwire]
  exact (size_toStr_le hparse (noFloat_envelope hver (hpayload ▸ hd) 64
    (wf_of_parseWith hparse))).trans hle

theorem readNode_trusted {trust : Trust} {max_bytes : Nat} {wire : String} {n : Node}
    (h : readNode P F trust max_bytes wire = some n) : trust.contains n.delta.author = true := by
  obtain ⟨-, m, ver, -, hauth, hver, hd, -, -⟩ := readNode_some h
  obtain ⟨-, -, hpayload, -⟩ := verify_ok hver
  obtain ⟨-, -, -, hauthor, htrust⟩ := authenticate_ok hauth
  obtain ⟨⟨mp, hmp, hname, -⟩, -⟩ := parsePayload_ok hd
  have hsigner : ver.signer = n.delta.author := by
    rw [hpayload, hmp] at hauthor
    simpa [Value.asObj, hname, Value.asStr] using hauthor.symm
  exact hsigner ▸ htrust

end

end DagStore

namespace Sync

open DagStore

section

variable {P : Prims} {F : Type} [FloatCodec F] {a b : DagStore}

/-! ## Stores that exchange envelopes -/

theorem Reached.filed {wires : List String} (h : Reached P F wires a) : Filed (Read P F) a := by
  obtain ⟨cfg, s₀, hnew, rfl⟩ := h
  obtain ⟨trust, -, rfl⟩ := new_ok hnew
  exact filed_insertWires wires (fun c n hn => by simp at hn)

/-- Each node is filed under the digest of what its delta prints. -/
theorem Reached.cids {wires : List String} (h : Reached P F wires a) {c : String} {n : Node}
    (hn : a.nodes[c]? = some n) : n.cid = c ∧ n.cid = cidOf P (payloadValue n.delta : Value F) :=
  ⟨(h.filed c n (.inl hn)).1, (h.filed c n (.inl hn)).2.cid⟩

/-- Each node was read under the store's own trust and limit. -/
theorem Reached.carried {wires : List String} (h : Reached P F wires a)
    (hfree : CollisionFree P F {w | w ∈ wires}) {c : String} {n : Node}
    (hn : a.nodes[c]? = some n) :
    ∃ w, readNode P F a.trust a.cfg.max_envelope_bytes w = some n := by
  obtain ⟨cfg, s₀, hnew, rfl⟩ := h
  obtain ⟨trust, -, rfl⟩ := new_ok hnew
  obtain ⟨hsetup, hinv⟩ := loopInv_insertWires (s := { trust := trust, cfg := cfg })
    (keysApart_carried hfree) (fun w hw x hx => ⟨w, hw, hx⟩) (loopInv_new trust cfg)
  obtain ⟨w, -, hread⟩ := hinv.nodes.known c n (.inl hn)
  rw [hsetup.1, hsetup.2]
  exact ⟨w, hread⟩

/-- The answer to a want is made of the envelopes of nodes. -/
theorem Reached.onWant {wires : List String} (h : Reached P F wires a)
    {cids their_heads : List String} {w : String} (hw : w ∈ Sync.onWant a cids their_heads) :
    ∃ n : Node, a.nodes[n.cid]? = some n ∧ n.wire = w := by
  obtain ⟨n, hn, rfl⟩ := List.mem_map.mp hw
  obtain ⟨c, -, hc⟩ := List.mem_filterMap.mp (List.mem_mergeSort.mp (List.mem_of_mem_take hn))
  exact ⟨n, (h.cids hc).1.symm ▸ hc, rfl⟩

/-- What becomes of an envelope that reads. -/
theorem insertWire_read {wire : String} {n : Node}
    (h : readNode P F b.trust b.cfg.max_envelope_bytes wire = some n) :
    insertWire P F b wire =
      if b.nodes.contains n.cid then (.ok (.duplicate n.cid), b)
      else
        match b.orphans[n.cid]? with
        | some o => (.ok (.pending n.cid (b.missing o.delta)), b)
        | none => insertNode P F b n := by
  obtain ⟨hsize, m, ver, hparse, hauth, hver, hd, hcid, hwire⟩ := readNode_some h
  obtain ⟨-, -, hpayload, hbytes⟩ := verify_ok hver
  unfold insertWire insertValue
  rw [if_neg (not_lt.mpr hsize), hparse]
  dsimp only
  rw [hauth]
  dsimp only
  rewrite [hpayload, hd, hbytes, ← hcid, ← hwire]
  split_ifs
  · rfl
  · cases b.orphans[n.cid]? <;> rfl

/-- A store with the parents of a node of another store, and room for it, has
it from the other's envelope. -/
theorem resend_accepted {Q : Node → Prop} (hq : Names P F Q) (ha : LoopInv P F Q a [] [])
    (hb : LoopInv P F Q b [] []) {n : Node} (hn : a.nodes[n.cid]? = some n)
    (hsize : n.wire.utf8ByteSize ≤ b.cfg.max_envelope_bytes)
    (htrust : b.trust.contains n.delta.author = true)
    (hparents : ∀ p ∈ n.delta.parents, p ∈ b.nodes)
    (hroom : n.cid ∈ b.nodes ∨ b.nodes.size < b.cfg.max_nodes) :
    ((insertWire P F b n.wire).1 = .ok (.duplicate n.cid) ∨
      ∃ promoted dropped, (insertWire P F b n.wire).1 = .ok (.inserted n.cid promoted dropped)) ∧
    deltas (insertWire P F b n.wire).2.nodes n.cid = some n.delta := by
  have hQ : Q n := ha.nodes.known n.cid n (.inl hn)
  have hread : readNode P F b.trust b.cfg.max_envelope_bytes n.wire = some n := by
    rw [hq.resend n hQ, if_pos ⟨hsize, htrust⟩]
  -- whatever is filed under the cid is this delta
  have hsame : n.cid ∈ (insertWire P F b n.wire).2.nodes →
      deltas (insertWire P F b n.wire).2.nodes n.cid = some n.delta := by
    intro hmem
    obtain ⟨n', hn'⟩ := StrMap.mem_iff_get.mp hmem
    exact deltas_eq_some.mpr ⟨n', hn', (hq.common ha (resend_step hq hb hQ).1 hn hn').symm⟩
  by_cases hmem : n.cid ∈ b.nodes
  · have heq : insertWire P F b n.wire = (.ok (.duplicate n.cid), b) := by
      rw [insertWire_read hread, if_pos (by simpa using hmem)]
    exact ⟨.inl (by rw [heq]), hsame (by rw [heq]; exact hmem)⟩
  have hroom := hroom.resolve_left hmem
  have htaken := resend_taken hq ha hb hn hroom ⟨hsize, htrust, hmem, hparents⟩
  refine ⟨.inr ?_, hsame htaken⟩
  have hno : b.orphans[n.cid]? = none := by
    cases ho : b.orphans[n.cid]? with
    | none => rfl
    | some o =>
        have hdelta := hq.delta_eq o n (hb.nodes.known n.cid o (.inr ho)) hQ
          (hb.orphans.orphan_cid n.cid o ho)
        obtain ⟨p, hp, hpn⟩ := hb.consistent.misses n.cid o ho
        exact absurd (hparents p (hdelta ▸ hp)) hpn
  have heq : insertWire P F b n.wire = insertNode P F b n := by
    rw [insertWire_read hread, if_neg (by simpa using hmem), hno]
  rw [heq] at htaken ⊢
  unfold insertNode at htaken ⊢
  dsimp only at htaken ⊢
  rw [if_neg (not_not.mpr (missing_eq_nil.mpr hparents))] at htaken ⊢
  cases hacc : accept P F b n with
  | error e =>
      rw [hacc] at htaken
      exact absurd htaken hmem
  | ok s => exact ⟨_, _, rfl⟩

/-- The payload of a delta and the delta of a payload determine each other; a
store files each node under the digest of what its delta prints; and what it
sends in answer to a want is accepted, as the same delta under the same cid,
by a store with the same trust that has the parents, provided that it is not
full (or has the node) and that its limit admits the envelope, as the
sender's does. -/
theorem reexport {wires wires' : List String} (ha : Reached P F wires a)
    (hb : Reached P F wires' b) :
    (∀ d : GraphDelta, d.Valid → parsePayload P (payloadValue d : Value F) = .ok d) ∧
    (∀ room (v : Value F) d, v.WF (fun _ => True) room → parsePayload P v = .ok d →
      d.Valid ∧ payloadValue d = v) ∧
    (∀ (c : String) n, a.nodes[c]? = some n →
      n.cid = c ∧ n.cid = cidOf P (payloadValue n.delta : Value F)) ∧
    (CollisionFree P F {w | w ∈ wires ++ wires'} →
      (∀ did, a.trust.contains did = b.trust.contains did) →
      ∀ cids their_heads, ∀ w ∈ Sync.onWant a cids their_heads,
        ∃ n : Node, a.nodes[n.cid]? = some n ∧ n.wire = w ∧
          w.utf8ByteSize ≤ a.cfg.max_envelope_bytes ∧
          (w.utf8ByteSize ≤ b.cfg.max_envelope_bytes →
            (∀ p ∈ n.delta.parents, p ∈ b.nodes) →
            (n.cid ∈ b.nodes ∨ b.nodes.size < b.cfg.max_nodes) →
            ((insertWire P F b w).1 = .ok (.duplicate n.cid) ∨ ∃ promoted dropped,
              (insertWire P F b w).1 = .ok (.inserted n.cid promoted dropped)) ∧
            deltas (insertWire P F b w).2.nodes n.cid = some n.delta)) := by
  refine ⟨fun d hd => parsePayload_payloadValue hd, fun room v d hv hd => parsePayload_inv hv hd,
    fun c n hn => ha.cids hn, ?_⟩
  intro hfree htrust cids their_heads w hw
  obtain ⟨n, hn, rfl⟩ := ha.onWant hw
  have hinv_a := ha.inv (fun w hw => List.mem_append_left wires' hw) hfree
  have hinv_b := hb.inv (fun w hw => List.mem_append_right wires hw) hfree
  have hq := names_of_carries hfree (fun n (hn : Carries P F {w | w ∈ wires ++ wires'} n) => hn)
  have hfree_a : CollisionFree P F {w | w ∈ wires} := by
    refine hfree.mono ?_
    rintro x ⟨w, hw, hx⟩
    exact ⟨w, List.mem_append_left wires' hw, hx⟩
  obtain ⟨w, hread⟩ := ha.carried hfree_a hn
  exact ⟨n, hn, rfl, readNode_size hread, fun hsize hparents hroom =>
    resend_accepted hq hinv_a hinv_b hn hsize (htrust _ ▸ readNode_trusted hread) hparents hroom⟩

/-- A node is sent to whoever asks for it and names no heads, by a store that
fits one batch. -/
theorem mem_onWant {c : String} {n : Node} (hn : a.nodes[c]? = some n)
    (hsize : a.nodes.size ≤ MAX_BATCH) : n.wire ∈ Sync.onWant a [c] [] := by
  have hsend : ∀ x, x ∈ (toSend a [c] []).toList ↔ Ancestor a c x := by
    intro x
    rw [Std.ExtTreeSet.mem_toList, mem_toSend]
    simp [MAX_WANT, StrMap.mem_of_get hn]
  have hlen : (toSend a [c] []).toList.length ≤ a.nodes.keys.length := by
    refine (StrSet.nodup_toList.subperm (fun x hx => ?_)).length_le
    exact Std.ExtTreeMap.mem_keys.mpr (ancestor_mem (StrMap.mem_of_get hn) ((hsend x).mp hx))
  refine List.mem_map.mpr ⟨n, ?_, rfl⟩
  rw [batch, List.take_of_length_le]
  · rw [topo, List.mem_mergeSort, List.mem_filterMap]
    exact ⟨c, (hsend c).mpr .refl, hn⟩
  · rw [topo, List.length_mergeSort]
    rw [Std.ExtTreeMap.length_keys] at hlen
    exact (List.length_filterMap_le _ _).trans (hlen.trans hsize)

end

end Sync

namespace LongHistory

open DagStore Sync

/-- The store that only the first delta has reached. -/
def first : DagStore := insertWires prims Empty Golden.store [wire 0]

/-- The store that has the first delta, and room for one. -/
def full : DagStore :=
  insertWires prims Empty { Golden.store with cfg := { Golden.config with max_nodes := 1 } } [wire 0]

theorem filled_first : Filled Golden.store [0] first := by
  rw [first, insertWires_one]
  exact filled_one filled_start (by simp) (by simp) (by omega) (by simp) (.inl rfl)

theorem filled_full :
    Filled { Golden.store with cfg := { Golden.config with max_nodes := 1 } } [0] full := by
  rw [full, insertWires_one]
  refine filled_insert trust_agent (by decide) (by decide) (by simp) (by omega) (by simp) (.inl rfl)
    ⟨fun c n => by simp [Golden.store], rfl, rfl, rfl, ⟨rfl, rfl⟩⟩

theorem reached_full : Reached prims Empty [wire 0] full := by
  refine ⟨{ Golden.config with max_nodes := 1 }, _, ?_, rfl⟩
  have h : ∀ d ∈ [Golden.AGENT], (pubkeyFromDid d).isOk = true := by decide +kernel
  simp [DagStore.new, Golden.config, Trust.new, Golden.store, h]

theorem both_sends : wire 1 ∈ Sync.onWant both [cid 1] [] := by
  have hsize : both.nodes.size ≤ MAX_BATCH := by
    rw [filled_both.size]
    decide
  have hsent : (node 1).wire ∈ Sync.onWant both [cid 1] [] :=
    mem_onWant ((filled_both.nodes _ _).mpr ⟨1, by simp, rfl, rfl⟩) hsize
  simpa only [node] using hsent

theorem parents_second {s₀ s : DagStore} (h : Filled s₀ [0] s) :
    ∀ p ∈ (node 1).delta.parents, p ∈ s.nodes := by
  intro p hp
  simp only [node, delta, one_ne_zero, if_false, List.mem_singleton] at hp
  rw [show min 1 256 - 1 = 0 from by decide] at hp
  exact hp ▸ StrMap.mem_of_get ((h.nodes (cid 0) (node 0)).mpr ⟨0, by simp, rfl, rfl⟩)

/-- One store has the first two deltas, another the first: the second is sent
and taken. -/
theorem second_reexported : wire 1 ∈ Sync.onWant both [cid 1] [] ∧
    ∃ n : Node, n.wire = wire 1 ∧ n.cid = cidOf prims (payloadValue n.delta : Value Empty) ∧
      deltas (insertWire prims Empty first (wire 1)).2.nodes n.cid = some n.delta := by
  have hreach : Reached prims Empty [wire 0] first :=
    ⟨Golden.config, Golden.store, Golden.new_config, rfl⟩
  have hfree : CollisionFree prims Empty {w | w ∈ [wire 0, wire 1] ++ [wire 0]} := by
    refine collisionFree (fun w hw => ?_)
    simp only [List.cons_append, List.nil_append, List.mem_cons, List.not_mem_nil, or_false,
      Set.mem_ofPred_eq] at hw
    rcases hw with rfl | rfl | rfl
    · exact ⟨0, by omega, rfl⟩
    · exact ⟨1, by omega, rfl⟩
    · exact ⟨0, by omega, rfl⟩
  have htrust : ∀ did, both.trust.contains did = first.trust.contains did := fun did => by
    rw [filled_both.setup.1, filled_first.setup.1]
  obtain ⟨-, -, hcids, hsent⟩ := reexport reached_both hreach
  obtain ⟨n, hn, hwire, -, htaken⟩ := hsent hfree htrust [cid 1] [] (wire 1) both_sends
  obtain ⟨i, hi, hcid, hnode⟩ := (filled_both.nodes n.cid n).mp hn
  have hsize : (wire 1).utf8ByteSize ≤ first.cfg.max_envelope_bytes := by
    have := (wire_le (i := 1) (by omega)).1
    have hmax : first.cfg.max_envelope_bytes = 65536 := by rw [filled_first.setup.2]; rfl
    rw [hmax, wire, toStr, utf8ByteSize_ofList]
    omega
  have hparents : ∀ p ∈ n.delta.parents, p ∈ first.nodes := by
    subst hnode
    simp only [List.mem_cons, List.not_mem_nil, or_false] at hi
    rcases hi with rfl | rfl
    · exact parents_second filled_first
    · intro p hp
      simp [node, delta] at hp
  have hroom : first.nodes.size < first.cfg.max_nodes := by
    rw [filled_first.size, filled_first.setup.2]
    decide
  exact ⟨both_sends, n, hwire, (hcids n.cid n hn).2, (htaken hsize hparents (.inr hroom)).2⟩

theorem full_lacks_second : cid 1 ∉ full.nodes := by
  intro hmem
  obtain ⟨n, hn⟩ := StrMap.mem_iff_get.mp hmem
  obtain ⟨i, hi, hcid, -⟩ := (filled_full.nodes _ n).mp hn
  rw [List.mem_singleton.mp hi] at hcid
  exact absurd (cid_inj (by omega) (by omega) hcid) (by decide)

theorem full_reads {i : Nat} (hi : i < 2 ^ 16) :
    readNode prims Empty full.trust full.cfg.max_envelope_bytes (wire i) = some (node i) := by
  rw [filled_full.setup.1, filled_full.setup.2]
  exact readNode_wire hi trust_agent (by decide)

/-- A full store refuses a delta it does not know, once its parents are there. -/
theorem insertNode_full {P : Prims} {F : Type} [FloatCodec F] {s : DagStore} {n : Node}
    (hparents : ∀ p ∈ n.delta.parents, p ∈ s.nodes) (hfull : s.cfg.max_nodes ≤ s.nodes.size) :
    ∃ e, (insertNode P F s n).1 = .error e := by
  unfold insertNode
  dsimp only
  rw [if_neg (not_not.mpr (missing_eq_nil.mpr hparents))]
  cases hacc : accept P F s n with
  | error e => exact ⟨e, rfl⟩
  | ok s' => exact absurd (accept_ok hacc).2.1 (not_lt.mpr hfull)

/-- A store of the same trust that holds the parent but has no room refuses
what the other sends. -/
theorem full_store_refuses : Reached prims Empty [wire 0, wire 1] both ∧
    Reached prims Empty [wire 0] full ∧
    (∀ did, both.trust.contains did = full.trust.contains did) ∧
    wire 1 ∈ Sync.onWant both [cid 1] [] ∧ both.nodes[cid 1]? = some (node 1) ∧
    (node 1).wire = wire 1 ∧ (∀ p ∈ (node 1).delta.parents, p ∈ full.nodes) ∧
    ∃ e, (insertWire prims Empty full (wire 1)).1 = .error e := by
  refine ⟨reached_both, reached_full, fun did => ?_, both_sends,
    (filled_both.nodes _ _).mpr ⟨1, by simp, rfl, rfl⟩, by rw [node], parents_second filled_full, ?_⟩
  · rw [filled_both.setup.1, filled_full.setup.1]
  have hnew : full.nodes.contains (node 1).cid = false := by
    simpa [node] using full_lacks_second
  have horphan : full.orphans[(node 1).cid]? = none := by
    rw [filled_full.orphans]
    simp
  have hroom : full.cfg.max_nodes ≤ full.nodes.size := by
    rw [filled_full.size, filled_full.setup.2]
    decide
  rw [insertWire_read (full_reads (by omega)), hnew, if_neg Bool.false_ne_true, horphan]
  exact insertNode_full (parents_second filled_full) hroom

end LongHistory

end Secdogie.Graph
