/-
# `Secdogie.Graph.SyncProgress` — what one exchange moves

The responder ships a prefix of the wanted history, at most `MAX_BATCH`
nodes, less only what lies under those of the requester's heads that it
happens to know.  So an exchange can be filled with nodes the requester
already has.  This file says exactly when it brings something new.

`Sent a W b` is the set of cids of one answer: the first `MAX_BATCH` of what
`a` owes `b` for the wanted set `W`.  The answer adds a node exactly if it
`Brings` one: one that `b` reads, lacks, and has the parents of
(`answer_iff`).  Where `b` reads everything that `a` has, that is the same
as sending anything `b` lacks (`brings_of_reads`): the least such node of
the batch has its parents in `b`.
-/
import Secdogie.Lib.FirstN
import Secdogie.Graph.Convergence
import Secdogie.Graph.Sync

namespace Secdogie.Graph

namespace Sync

open DagStore

/-! ## What is wanted and what is sent -/

/-- The heads of `a` that `b` asks for. -/
def WantedHeads (a b : DagStore) : Set String :=
  firstN (· < ·) {h | h ∈ a.heads ∧ b.knows h = false} MAX_WANT

/-- The parents that the orphans of `b` miss and that `b` asks for. -/
def MissingParents (b : DagStore) : Set String :=
  firstN (· < ·) {p | b.knows p = false ∧
    ∃ (c : String) (o : Node), b.orphans[c]? = some o ∧ p ∈ o.delta.parents} MAX_WANT

/-- What `a` has of a wanted set, ancestors included, and cannot tell to be
under the heads of `b`. -/
def Owed (a : DagStore) (wanted : Set String) (b : DagStore) : Set String :=
  {c | (∃ r ∈ wanted, r ∈ a.nodes ∧ Ancestor a r c) ∧
    ¬ ∃ r, r ∈ b.heads ∧ r ∈ a.nodes ∧ Ancestor a r c}

/-- The order in which nodes are sent: by lamport, then by cid. -/
def Before (a : DagStore) (c c' : String) : Prop :=
  lamportOf a.nodes c < lamportOf a.nodes c' ∨
    (lamportOf a.nodes c = lamportOf a.nodes c' ∧ c < c')

/-- The cids of the answer of `a` to `b` asking for `wanted`. -/
def Sent (a : DagStore) (wanted : Set String) (b : DagStore) : Set String :=
  firstN (Before a) (Owed a wanted b) MAX_BATCH

/-- `b` takes a node of another store: its envelope fits, its author is
trusted, and its parents are there while it is not. -/
structure Takes (b : DagStore) (n : Node) : Prop where
  fits : n.wire.utf8ByteSize ≤ b.cfg.max_envelope_bytes
  trusted : b.trust.contains n.delta.author = true
  new : n.cid ∉ b.nodes
  parents : ∀ p ∈ n.delta.parents, p ∈ b.nodes

/-- What `a` would answer to `b` asking for `wanted` has a node that `b`
takes. -/
def Brings (a : DagStore) (wanted : Set String) (b : DagStore) : Prop :=
  ∃ c ∈ Sent a wanted b, ∃ n, a.nodes[c]? = some n ∧ Takes b n

theorem before_asymm (a : DagStore) (c c' : String) (h : Before a c c') : ¬ Before a c' c := by
  rintro (h' | ⟨h', hc'⟩) <;> rcases h with h | ⟨h, hc⟩
  · omega
  · omega
  · omega
  · exact lt_asymm hc hc'

theorem before_trans (a : DagStore) (c c' c'' : String) (h : Before a c c') (h' : Before a c' c'') :
    Before a c c'' := by
  rcases h with h | ⟨h, hc⟩ <;> rcases h' with h' | ⟨h', hc'⟩
  · exact .inl (by omega)
  · exact .inl (by omega)
  · exact .inl (by omega)
  · exact .inr ⟨h.trans h', hc.trans hc'⟩

theorem mem_sortDedup {l : List String} {c : String} : c ∈ sortDedup l ↔ c ∈ l := by
  rw [sortDedup, Std.ExtTreeSet.mem_toList, Std.ExtTreeSet.mem_ofList, List.contains_iff_mem]

theorem sorted_sortDedup (l : List String) : (sortDedup l).Pairwise (· < ·) :=
  Std.ExtTreeSet.ordered_toList.imp (fun h => compare_lt_iff_lt.mp h)

theorem mem_wantsFor {b : DagStore} {remote : List String} {c : String} :
    c ∈ wantsFor b remote ↔
      c ∈ firstN (· < ·) {h | h ∈ remote ∧ b.knows h = false} MAX_WANT := by
  refine mem_take_iff_firstN (fun _ _ h => lt_asymm h) (fun x => ?_) (sorted_sortDedup _)
  simp [mem_sortDedup]

theorem mem_heads {s : DagStore} {c : String} : c ∈ heads s ↔ c ∈ s.heads :=
  Std.ExtTreeSet.mem_toList

/-! ## What two stores have in common -/

/-- What some of `wires` carries, for a store of some trust and some
envelope limit. -/
def Carries (P : Prims) (F : Type) [FloatCodec F] (wires : Set String) (n : Node) : Prop :=
  ∃ trust max_bytes, CarriedBy P F trust max_bytes wires n

/-- A set of nodes in which a cid names one delta and a state key one
state, and whose envelopes carry what they came from. -/
structure Names (P : Prims) (F : Type) [FloatCodec F] (Q : Node → Prop) : Prop where
  keys : KeysApart P F (opsWhere Q)
  delta_eq : ∀ n n', Q n → Q n' → n.cid = n'.cid → n.delta = n'.delta
  resend : ∀ n, Q n → ∀ trust max_bytes, readNode P F trust max_bytes n.wire =
    if n.wire.utf8ByteSize ≤ max_bytes ∧ trust.contains n.delta.author = true then some n else none

section

variable {P : Prims} {F : Type} [FloatCodec F] {Q : Node → Prop} {a b : DagStore}

/-- The envelope a node travels as carries that node. -/
theorem readNode_wire {wire : String} {n : Node} {trust : Trust} {max_bytes : Nat}
    (h : readNode P F trust max_bytes wire = some n) (trust' : Trust) (max_bytes' : Nat) :
    readNode P F trust' max_bytes' n.wire =
      if n.wire.utf8ByteSize ≤ max_bytes' ∧ trust'.contains n.delta.author = true then some n
      else none := by
  obtain ⟨-, m, ver, hparse, hauth, hver, hd, hcid, hwire⟩ := readNode_some h
  obtain ⟨-, -, hpayload, hbytes⟩ := verify_ok hver
  have hwf : (Value.obj m).WF (fun _ => False) 64 :=
    noFloat_envelope hver (hpayload ▸ hd) 64 (wf_of_parseWith hparse)
  have hmax : wire.utf8ByteSize ≤ 2 ^ 20 := by
    unfold parse parseWith at hparse
    split_ifs at hparse with hbig
    exact not_lt.mp hbig
  have hread : parse (F := F) n.wire = .ok (.obj m) := by
    rw [hwire]
    exact parseWith_toStr (fun _ h => h.elim) hwf ((size_toStr_le hparse hwf).trans hmax)
  obtain ⟨m', hm', -, hauthor, -⟩ := authenticate_ok hauth
  obtain ⟨⟨mp, hmp, hname, -⟩, -⟩ := parsePayload_ok hd
  have hsigner : ver.signer = n.delta.author := by
    rw [hpayload, hmp] at hauthor
    simpa [Value.asObj, hname, Value.asStr] using hauthor.symm
  have hcheck : authenticate P trust' (.obj m) =
      if trust'.contains n.delta.author = true then .ok ver else .error ⟨"untrusted author"⟩ := by
    have hobj : (Value.obj m).asObj = some m := rfl
    rw [authenticate, hobj]
    dsimp only
    rw [hver]
    dsimp only
    rw [if_neg (not_not.mpr hauthor), hsigner]
    cases trust'.contains n.delta.author <;> rfl
  unfold readNode
  by_cases hsize : n.wire.utf8ByteSize ≤ max_bytes'
  · rw [if_neg (by omega), hread]
    dsimp only
    rw [hcheck]
    by_cases htrust : trust'.contains n.delta.author = true
    · rw [if_pos htrust, if_pos ⟨hsize, htrust⟩]
      dsimp only
      rw [hpayload, hd, hbytes, ← hcid, ← hwire]
    · rw [if_neg htrust, if_neg (fun h => htrust h.2)]
  · rw [if_pos (by omega), if_neg (fun h => hsize h.1)]

theorem names_of_carries {wires : Set String} (hfree : CollisionFree P F wires)
    (hQ : ∀ n, Q n → Carries P F wires n) : Names P F Q where
  keys := by
    refine keysApart_of_injOn (hfree.mono ?_)
    rintro b ⟨o, r, q, ⟨n, hn, hop⟩, rfl⟩
    obtain ⟨_, _, w, hw, hread⟩ := hQ n hn
    obtain ⟨-, m, ver, hparse, -, -, hd, -, -⟩ := readNode_some hread
    exact ⟨w, hw, m, hparse, .inr ⟨n.delta, hd, o, r, q, hop, rfl⟩⟩
  delta_eq := fun n n' hn hn' hcid => by
    obtain ⟨_, _, h⟩ := hQ n hn
    obtain ⟨_, _, h'⟩ := hQ n' hn'
    exact delta_eq_of_cid_eq hfree h h' hcid
  resend := fun n hn => by
    obtain ⟨_, _, w, -, hread⟩ := hQ n hn
    exact readNode_wire hread

/-- Where two stores have a node in common it is the same delta. -/
theorem Names.common (hq : Names P F Q) (ha : LoopInv P F Q a [] []) (hb : LoopInv P F Q b [] [])
    {c : String} {n n' : Node} (hn : a.nodes[c]? = some n) (hn' : b.nodes[c]? = some n') :
    n.delta = n'.delta :=
  hq.delta_eq n n' (ha.nodes.known c n (.inl hn)) (hb.nodes.known c n' (.inl hn'))
    ((ha.nodes.node_cid c n hn).trans (hb.nodes.node_cid c n' hn').symm)

theorem mem_nodeParents {s : DagStore} {c p : String} :
    p ∈ s.nodeParents c ↔ ∃ n, s.nodes[c]? = some n ∧ p ∈ n.delta.parents ∧ p ∈ s.nodes := by
  unfold nodeParents
  cases s.nodes[c]? <;> simp

theorem ancestor_mem {s : DagStore} {r c : String} (hr : r ∈ s.nodes) (h : Ancestor s r c) :
    c ∈ s.nodes := by
  induction h with
  | refl => exact hr
  | tail _ hp _ =>
      obtain ⟨n, -, -, hp⟩ := mem_nodeParents.mp hp
      exact hp

/-- The history of a common node is common. -/
theorem ancestor_common (hq : Names P F Q) (ha : LoopInv P F Q a [] [])
    (hb : LoopInv P F Q b [] []) {r c : String} (hr : r ∈ b.nodes) (h : Ancestor a r c) :
    c ∈ b.nodes := by
  induction h with
  | refl => exact hr
  | tail _ hp ih =>
      obtain ⟨n, hn, hp, -⟩ := mem_nodeParents.mp hp
      obtain ⟨n', hn'⟩ := StrMap.mem_iff_get.mp ih
      rw [hq.common ha hb hn hn'] at hp
      exact hb.nodes.parent_node _ n' hn' _ hp

/-! ## The batch -/

theorem topoLe_trans (n m k : Node) : topoLe n m = true → topoLe m k = true →
    topoLe n k = true := by
  simp only [topoLe, decide_eq_true_eq]
  rintro (h | ⟨h, hc⟩) (h' | ⟨h', hc'⟩)
  · exact .inl (by omega)
  · exact .inl (by omega)
  · exact .inl (by omega)
  · exact .inr ⟨by omega, hc.trans hc'⟩

theorem topoLe_total (n m : Node) : (topoLe n m || topoLe m n) = true := by
  simp only [topoLe, Bool.or_eq_true, decide_eq_true_eq]
  rcases lt_trichotomy n.delta.lamport m.delta.lamport with h | h | h
  · exact .inl (.inl h)
  · rcases le_total n.cid m.cid with hc | hc
    · exact .inl (.inr ⟨h, hc⟩)
    · exact .inr (.inr ⟨h.symm, hc⟩)
  · exact .inr (.inl h)

/-- The nodes behind a list of cids, in the order they are sent. -/
theorem cids_topo (ha : LoopInv P F Q a [] []) {cids : List String}
    (hnd : cids.Nodup) :
    ((a.topo cids).map Node.cid).Pairwise (Before a) ∧
      (∀ n, n ∈ a.topo cids ↔ n.cid ∈ cids ∧ a.nodes[n.cid]? = some n) := by
  have hmem : ∀ n, n ∈ a.topo cids ↔ n.cid ∈ cids ∧ a.nodes[n.cid]? = some n := by
    intro n
    rw [topo, List.mem_mergeSort, List.mem_filterMap]
    constructor
    · rintro ⟨c, hc, hn⟩
      rw [ha.nodes.node_cid c n hn]
      exact ⟨hc, hn⟩
    · rintro ⟨hc, hn⟩
      exact ⟨n.cid, hc, hn⟩
  refine ⟨?_, hmem⟩
  have hsorted : (a.topo cids).Pairwise (fun n m => topoLe n m = true) :=
    List.pairwise_mergeSort topoLe_trans topoLe_total _
  have hnodup : (a.topo cids).Nodup := by
    refine (List.mergeSort_perm _ _).nodup_iff.mpr ?_
    refine List.Nodup.filterMap (fun c c' n hn hn' => ?_) hnd
    rw [← ha.nodes.node_cid c n hn, ← ha.nodes.node_cid c' n hn']
  rw [List.pairwise_map]
  refine (hsorted.and hnodup).imp_of_mem (fun {n m} hn hm h => ?_)
  obtain ⟨hle, hne⟩ := h
  obtain ⟨-, hn⟩ := (hmem n).mp hn
  obtain ⟨-, hm⟩ := (hmem m).mp hm
  simp only [topoLe, decide_eq_true_eq] at hle
  simp only [Before, lamportOf, hn, hm]
  refine hle.imp_right (fun h => ⟨h.1, lt_of_le_of_ne h.2 (fun hcid => hne ?_)⟩)
  rw [hcid] at hn
  exact Option.some.inj (hn.symm.trans hm)

theorem mem_toSend_iff {cids : List String} (hlen : cids.length ≤ MAX_WANT) {c : String} :
    c ∈ toSend a cids (heads b) ↔ c ∈ Owed a {r | r ∈ cids} b := by
  rw [mem_toSend, List.take_of_length_le hlen]
  simp only [Owed, mem_heads, Set.mem_ofPred_eq]

/-- The batch is the first nodes owed, in order. -/
theorem mem_batch (ha : LoopInv P F Q a [] []) {cids : List String}
    (hlen : cids.length ≤ MAX_WANT) {n : Node} : n ∈ batch a cids (heads b) ↔
      a.nodes[n.cid]? = some n ∧ n.cid ∈ Sent a {r | r ∈ cids} b := by
  classical
  have hnodes : ∀ c ∈ (toSend a cids (heads b)).toList, c ∈ a.nodes := fun c hc => by
    obtain ⟨⟨r, -, hr, hrc⟩, -⟩ := (mem_toSend_iff hlen).mp (Std.ExtTreeSet.mem_toList.mp hc)
    exact ancestor_mem hr hrc
  obtain ⟨hsorted, hmem⟩ := cids_topo ha (StrSet.nodup_toList (s := toSend a cids (heads b)))
  have hcids : ∀ c, c ∈ (a.topo (toSend a cids (heads b)).toList).map Node.cid ↔
      c ∈ Owed a {r | r ∈ cids} b := by
    intro c
    rw [List.mem_map, ← mem_toSend_iff hlen, ← Std.ExtTreeSet.mem_toList]
    constructor
    · rintro ⟨m, hm, rfl⟩
      exact ((hmem m).mp hm).1
    · intro hc
      obtain ⟨m, hm⟩ := StrMap.mem_iff_get.mp (hnodes c hc)
      have hcid := ha.nodes.node_cid c m hm
      exact ⟨m, (hmem m).mpr ⟨hcid ▸ hc, hcid ▸ hm⟩, hcid⟩
  have htake := fun c => mem_take_iff_firstN (before_asymm a) hcids hsorted (k := MAX_BATCH) (x := c)
  simp only [← List.map_take, List.mem_map] at htake
  rw [batch, Sent, ← htake]
  constructor
  · intro hn
    exact ⟨((hmem n).mp (List.mem_of_mem_take hn)).2, n, hn, rfl⟩
  · rintro ⟨hn, m, hm, hcid⟩
    have := ((hmem m).mp (List.mem_of_mem_take hm)).2
    rw [hcid, hn, Option.some.injEq] at this
    exact this ▸ hm

/-- What comes before something sent, and is owed, is sent as well. -/
theorem sent_of_before {wanted : Set String} {c p : String} (hc : c ∈ Sent a wanted b)
    (hp : p ∈ Owed a wanted b) (hlt : Before a p c) : p ∈ Sent a wanted b := by
  refine ⟨hp, lt_of_le_of_lt (Set.ncard_le_ncard ?_ ?_) hc.2⟩
  · rintro x ⟨hx, hxp⟩
    exact ⟨hx, before_trans a _ _ _ hxp hlt⟩
  · refine Set.Finite.subset (Finset.finite_toSet a.nodes.keys.toFinset) ?_
    rintro x ⟨⟨⟨r, -, hr, hrx⟩, -⟩, -⟩
    simpa using ancestor_mem hr hrx

/-- A parent of something owed is owed, or is a node of the requester. -/
theorem owed_parent (hq : Names P F Q) (ha : LoopInv P F Q a [] []) (hb : LoopInv P F Q b [] [])
    {wanted : Set String} {c p : String} {n : Node} (hc : c ∈ Owed a wanted b)
    (hn : a.nodes[c]? = some n) (hp : p ∈ n.delta.parents) :
    p ∈ b.nodes ∨ (p ∈ Owed a wanted b ∧ Before a p c) := by
  have hpa : p ∈ a.nodes := ha.nodes.parent_node c n hn p hp
  by_cases htheirs : ∃ r, r ∈ b.heads ∧ r ∈ a.nodes ∧ Ancestor a r p
  · obtain ⟨r, hr, -, hrp⟩ := htheirs
    exact .inl (ancestor_common hq ha hb ((hb.nodes.heads r).mp hr).1 hrp)
  · obtain ⟨⟨r, hrw, hr, hrc⟩, -⟩ := hc
    have hparent : p ∈ a.nodeParents c := mem_nodeParents.mpr ⟨n, hn, hp, hpa⟩
    refine .inr ⟨⟨⟨r, hrw, hr, hrc.tail hparent⟩, htheirs⟩, .inl ?_⟩
    have hle : lamportOf a.nodes p ≤ n.delta.parents.toFinset.sup (lamportOf a.nodes) :=
      Finset.le_sup (List.mem_toFinset.mpr hp)
    have hlam := ha.nodes.lamport c n hn
    have hself : lamportOf a.nodes c = n.delta.lamport := by simp [lamportOf, hn]
    omega

/-- `b` reads the envelopes of all that `a` has. -/
def Reads (b a : DagStore) : Prop :=
  ∀ (c : String) n, a.nodes[c]? = some n →
    n.wire.utf8ByteSize ≤ b.cfg.max_envelope_bytes ∧ b.trust.contains n.delta.author = true

/-- A store that reads all of `a` takes something of an answer as soon as
the answer has something it lacks. -/
theorem brings_of_reads (hq : Names P F Q) (ha : LoopInv P F Q a [] [])
    (hb : LoopInv P F Q b [] []) (hreads : Reads b a) {wanted : Set String} :
    Brings a wanted b ↔ ∃ c ∈ Sent a wanted b, c ∉ b.nodes := by
  constructor
  · rintro ⟨c, hc, n, hn, htakes⟩
    exact ⟨c, hc, ha.nodes.node_cid c n hn ▸ htakes.new⟩
  · -- by induction on the lamport
    suffices h : ∀ (k : ℕ) (c : String), c ∈ Sent a wanted b → c ∉ b.nodes →
        lamportOf a.nodes c < k → Brings a wanted b by
      rintro ⟨c, hc, hcb⟩
      exact h _ c hc hcb (Nat.lt_succ_self _)
    intro k
    induction k with
    | zero => exact fun c _ _ h => absurd h (Nat.not_lt_zero _)
    | succ k ih =>
        intro c hc hcb hk
        obtain ⟨⟨r, hrw, hr, hrc⟩, hnot⟩ := firstN_subset _ _ _ hc
        obtain ⟨n, hn⟩ := StrMap.mem_iff_get.mp (ancestor_mem hr hrc)
        have hcid := ha.nodes.node_cid c n hn
        by_cases hparents : ∀ p ∈ n.delta.parents, p ∈ b.nodes
        · exact ⟨c, hc, n, hn, (hreads c n hn).1, (hreads c n hn).2, hcid ▸ hcb, hparents⟩
        · push Not at hparents
          obtain ⟨p, hp, hpb⟩ := hparents
          obtain ⟨howed, hlt⟩ := (owed_parent hq ha hb (firstN_subset _ _ _ hc) hn hp).resolve_left hpb
          refine ih p (sent_of_before hc howed hlt) hpb ?_
          have hle : lamportOf a.nodes p ≤ n.delta.parents.toFinset.sup (lamportOf a.nodes) :=
            Finset.le_sup (List.mem_toFinset.mpr hp)
          have hlam := ha.nodes.lamport c n hn
          have hself : lamportOf a.nodes c = n.delta.lamport := by simp [lamportOf, hn]
          omega

/-! ## Ingesting it -/

theorem ingestOne_store (acc : DagStore × IngestReport) (e : String × Nat) :
    (ingestOne P F acc e).1 = (acc.1.insertWire P F e.1).2 := by
  unfold ingestOne
  rcases h : acc.1.insertWire P F e.1 with ⟨outcome, s⟩
  rcases outcome with err | (_ | _ | _) <;> simp [h]

theorem foldl_ingestOne_store : ∀ (l : List String) (k : Nat) (acc : DagStore × IngestReport),
    ((l.zipIdx k).foldl (ingestOne P F) acc).1 = insertWires P F acc.1 l
  | [], _, _ => rfl
  | w :: l, k, acc => by
      rw [List.zipIdx_cons, List.foldl_cons, foldl_ingestOne_store l, ingestOne_store]
      rfl

theorem onDeltas_store (s : DagStore) (envelopes : List String) :
    (onDeltas P F s envelopes).1 = insertWires P F s (envelopes.take MAX_BATCH) :=
  foldl_ingestOne_store _ _ _

/-- The store after the answer to a want. -/
theorem answer_store (b a : DagStore) (w : Want) :
    (answer P F b a w).1 = insertWires P F b ((batch a w.cids w.have_heads).map Node.wire) := by
  have hlen : ((batch a w.cids w.have_heads).map Node.wire).length ≤ MAX_BATCH := by
    rw [List.length_map, batch]
    exact List.length_take_le _ _
  calc (answer P F b a w).1
      = (onDeltas P F b (onWant a w.cids w.have_heads)).1 := rfl
    _ = insertWires P F b ((batch a w.cids w.have_heads).map Node.wire) := by
      rw [onDeltas_store, onWant, List.take_of_length_le hlen]

/-- The lamport of a node of `a` is right in `b` too, once its parents are
nodes there. -/
theorem lamport_common (hq : Names P F Q) (ha : LoopInv P F Q a [] []) (hb : LoopInv P F Q b [] [])
    {n : Node} (hn : a.nodes[n.cid]? = some n) (hparents : ∀ p ∈ n.delta.parents, p ∈ b.nodes) :
    n.delta.lamport = 1 + n.delta.parents.toFinset.sup (lamportOf b.nodes) := by
  rw [ha.nodes.lamport n.cid n hn]
  refine congrArg (1 + ·) (Finset.sup_congr rfl (fun p hp => ?_))
  have hp := List.mem_toFinset.mp hp
  obtain ⟨m, hm⟩ := StrMap.mem_iff_get.mp (ha.nodes.parent_node n.cid n hn p hp)
  obtain ⟨m', hm'⟩ := StrMap.mem_iff_get.mp (hparents p hp)
  simp [lamportOf, hm, hm', hq.common ha hb hm hm']

/-- One envelope of a peer: the store keeps the invariant, its limits and
its nodes. -/
theorem resend_step (hq : Names P F Q) (hb : LoopInv P F Q b [] []) {n : Node} (hn : Q n) :
    LoopInv P F Q (b.insertWire P F n.wire).2 [] [] ∧ SameSetup b (b.insertWire P F n.wire).2 ∧
      Grows b (b.insertWire P F n.wire).2 := by
  have hQ : ∀ x, readNode P F b.trust b.cfg.max_envelope_bytes n.wire = some x → Q x := by
    intro x hx
    rw [hq.resend n hn] at hx
    split_ifs at hx
    exact Option.some.inj hx ▸ hn
  refine ⟨loopInv_insertWire hq.keys hQ hb, sameSetup_insertWire hb.orphans _, ?_⟩
  rw [insertWire_store]
  split
  · exact fun _ _ h => h
  next x hx =>
  split_ifs with hknow
  · exact fun _ _ h => h
  · exact grows_insertNode hq.keys (hQ x hx) (by simpa using hknow) hb

/-- A node that is not taken adds none. -/
theorem resend_untaken (hq : Names P F Q) (hb : LoopInv P F Q b [] []) {n : Node} (hn : Q n)
    (h : ¬ (b.nodes.size < b.cfg.max_nodes ∧ Takes b n)) :
    (b.insertWire P F n.wire).2.nodes = b.nodes := by
  rw [insertWire_store, hq.resend n hn]
  split
  · rfl
  next x hx =>
  split_ifs at hx with hread
  obtain rfl := Option.some.inj hx
  split_ifs with hknow
  · rfl
  rcases insertNode_cases (P := P) (F := F) b n with ⟨-, heq⟩ | ⟨-, -, heq⟩ | ⟨hnil, s, hacc, -⟩
  · rw [heq, (hold_frame hb.orphans n).1]
  · rw [heq]
  · refine absurd ⟨(accept_ok hacc).2.1, hread.1, hread.2, fun hmem => hknow ?_,
      missing_eq_nil.mp hnil⟩ h
    simp [knows, hmem]

/-- A node that is taken is added, if there is room for it. -/
theorem resend_taken (hq : Names P F Q) (ha : LoopInv P F Q a [] []) (hb : LoopInv P F Q b [] [])
    {n : Node} (hn : a.nodes[n.cid]? = some n) (hroom : b.nodes.size < b.cfg.max_nodes)
    (h : Takes b n) : n.cid ∈ (b.insertWire P F n.wire).2.nodes := by
  have hQ := ha.nodes.known _ n (.inl hn)
  have hno : n.cid ∉ b.orphans := fun hc => by
    obtain ⟨o, ho⟩ := StrMap.mem_iff_get.mp hc
    have hdelta := hq.delta_eq o n (hb.nodes.known n.cid o (.inr ho)) hQ
      (hb.orphans.orphan_cid n.cid o ho)
    obtain ⟨p, hp, hpn⟩ := hb.consistent.misses n.cid o ho
    exact hpn (h.parents p (hdelta ▸ hp))
  rw [insertWire_store, hq.resend n hQ, if_pos ⟨h.fits, h.trusted⟩]
  simp only [knows, StrMap.contains_eq, h.new, hno, decide_false, Bool.or_self, if_false,
    Bool.false_eq_true]
  rcases insertNode_cases (P := P) (F := F) b n with
    ⟨hmiss, -⟩ | ⟨-, ⟨e, hacc⟩, -⟩ | ⟨-, s, hacc, heq⟩
  · exact absurd (missing_eq_nil.mpr h.parents) hmiss
  · rcases accept_error hacc with hbad | hfull
    · rw [expectedLamport_eq] at hbad
      exact absurd (lamport_common hq ha hb hn h.parents) hbad
    · omega
  · rw [heq]
    refine Grows.mem (grows_promote hq.keys ⟨nodeInv_accept hq.keys hQ h.new h.parents hb.nodes hacc,
      orphanInv_accept h.new hno hb.orphans hacc⟩) ?_
    obtain ⟨-, -, rfl⟩ := accept_ok hacc
    exact StrMap.mem_insert.mpr (.inl rfl)

/-- A batch of a peer: the store keeps the invariant, its limits and its
nodes. -/
theorem resend_all (hq : Names P F Q) : ∀ {l : List Node} {b : DagStore}, LoopInv P F Q b [] [] →
    (∀ n ∈ l, Q n) → LoopInv P F Q (insertWires P F b (l.map Node.wire)) [] [] ∧
      SameSetup b (insertWires P F b (l.map Node.wire)) ∧
      Grows b (insertWires P F b (l.map Node.wire))
  | [], _, hb, _ => ⟨hb, ⟨rfl, rfl⟩, fun _ _ h => h⟩
  | n :: l, b, hb, hl => by
      obtain ⟨h1, hs1, hg1⟩ := resend_step hq hb (hl n (by simp))
      obtain ⟨h2, hs2, hg2⟩ := resend_all hq (l := l) h1 (fun m hm => hl m (List.mem_cons_of_mem _ hm))
      exact ⟨h2, hs1.trans hs2, fun c x hx => hg2 c x (hg1 c x hx)⟩

theorem Takes.congr {b b' : DagStore} {n : Node} (hs : SameSetup b b') (hn : b'.nodes = b.nodes) :
    Takes b' n ↔ Takes b n := by
  constructor
  · rintro ⟨h1, h2, h3, h4⟩
    exact ⟨hs.2 ▸ h1, hs.1 ▸ h2, hn ▸ h3, hn ▸ h4⟩
  · rintro ⟨h1, h2, h3, h4⟩
    exact ⟨hs.2.symm ▸ h1, hs.1.symm ▸ h2, hn.symm ▸ h3, hn.symm ▸ h4⟩

/-- A batch with nothing that is taken leaves the nodes as they were; one
with something adds a node, if there is room. -/
theorem resend_all_nodes (hq : Names P F Q) (ha : LoopInv P F Q a [] []) :
    ∀ {l : List Node} {b : DagStore}, LoopInv P F Q b [] [] →
    (∀ n ∈ l, a.nodes[n.cid]? = some n) →
    (¬ (b.nodes.size < b.cfg.max_nodes ∧ ∃ n ∈ l, Takes b n) →
      (insertWires P F b (l.map Node.wire)).nodes = b.nodes) ∧
    (b.nodes.size < b.cfg.max_nodes → (∃ n ∈ l, Takes b n) →
      ∃ c ∈ (insertWires P F b (l.map Node.wire)).nodes, c ∉ b.nodes)
  | [], b, _, _ => ⟨fun _ => rfl, by simp⟩
  | n :: l, b, hb, hl => by
      have hQ : ∀ m ∈ n :: l, Q m := fun m hm => ha.nodes.known _ m (.inl (hl m hm))
      obtain ⟨h1, hs1, -⟩ := resend_step hq hb (hQ n (by simp))
      have hrest := fun m hm => hl m (List.mem_cons_of_mem n hm)
      obtain ⟨ih1, ih2⟩ := resend_all_nodes hq ha (l := l) h1 hrest
      by_cases htake : b.nodes.size < b.cfg.max_nodes ∧ Takes b n
      · have hin := resend_taken hq ha hb (hl n (by simp)) htake.1 htake.2
        obtain ⟨-, -, hg⟩ := resend_all hq (l := l) h1 (fun m hm => hQ m (List.mem_cons_of_mem _ hm))
        exact ⟨fun h => absurd ⟨htake.1, n, by simp, htake.2⟩ h,
          fun _ _ => ⟨n.cid, hg.mem hin, htake.2.new⟩⟩
      · have hsame := resend_untaken hq hb (hQ n (by simp)) htake
        have hcongr := fun m => Takes.congr (n := m) hs1 hsame
        rw [hsame, hs1.2] at ih1 ih2
        simp only [hcongr] at ih1 ih2
        refine ⟨fun h => ih1 (fun h' => h ⟨h'.1, ?_⟩), fun hroom h => ih2 hroom ?_⟩
        · obtain ⟨m, hm, ht⟩ := h'.2
          exact ⟨m, List.mem_cons_of_mem _ hm, ht⟩
        · obtain ⟨m, hm, ht⟩ := h
          rcases List.mem_cons.mp hm with rfl | hm
          · exact absurd ⟨hroom, ht⟩ htake
          · exact ⟨m, hm, ht⟩

/-! ## One answer and one pull -/

/-- The nodes of an answer are nodes of the responder. -/
theorem batch_nodes (ha : LoopInv P F Q a [] []) {cids : List String}
    (hlen : cids.length ≤ MAX_WANT) : ∀ n ∈ batch a cids (heads b), a.nodes[n.cid]? = some n :=
  fun _ hn => ((mem_batch ha hlen).mp hn).1

theorem brings_iff (ha : LoopInv P F Q a [] []) {cids : List String}
    (hlen : cids.length ≤ MAX_WANT) :
    Brings a {r | r ∈ cids} b ↔ ∃ n ∈ batch a cids (heads b), Takes b n := by
  constructor
  · rintro ⟨c, hc, n, hn, htakes⟩
    have hcid := ha.nodes.node_cid c n hn
    exact ⟨n, (mem_batch ha hlen).mpr ⟨hcid ▸ hn, hcid ▸ hc⟩, htakes⟩
  · rintro ⟨n, hn, htakes⟩
    obtain ⟨hna, hc⟩ := (mem_batch ha hlen).mp hn
    exact ⟨n.cid, hc, n, hna, htakes⟩

/-- After an answer the requester still keeps the invariant, its limits and
its nodes. -/
theorem answer_inv (hq : Names P F Q) (ha : LoopInv P F Q a [] []) (hb : LoopInv P F Q b [] [])
    {cids : List String} (hlen : cids.length ≤ MAX_WANT) :
    LoopInv P F Q (answer P F b a (want b cids)).1 [] [] ∧
      SameSetup b (answer P F b a (want b cids)).1 ∧ Grows b (answer P F b a (want b cids)).1 := by
  rw [answer_store]
  exact resend_all hq hb (fun n hn => ha.nodes.known _ n (.inl (batch_nodes ha hlen n hn)))

/-- An answer adds a node exactly if there is room and it brings one. -/
theorem answer_iff (hq : Names P F Q) (ha : LoopInv P F Q a [] []) (hb : LoopInv P F Q b [] [])
    {cids : List String} (hlen : cids.length ≤ MAX_WANT) :
    (¬ (b.nodes.size < b.cfg.max_nodes ∧ Brings a {r | r ∈ cids} b) →
      (answer P F b a (want b cids)).1.nodes = b.nodes) ∧
    (b.nodes.size < b.cfg.max_nodes → Brings a {r | r ∈ cids} b →
      ∃ c ∈ (answer P F b a (want b cids)).1.nodes, c ∉ b.nodes) := by
  rw [answer_store, brings_iff ha hlen]
  exact resend_all_nodes hq ha hb (batch_nodes ha hlen)

theorem wantsFor_heads : {c | c ∈ wantsFor b (heads a)} = WantedHeads a b := by
  ext c
  rw [Set.mem_ofPred_eq, mem_wantsFor, WantedHeads]
  simp only [mem_heads]

theorem length_wantsFor (b : DagStore) (remote : List String) :
    (wantsFor b remote).length ≤ MAX_WANT := List.length_take_le _ _

/-- Nothing is asked for when no head of the peer is unknown. -/
theorem wantsFor_eq_nil : wantsFor b (heads a) = [] ↔ ∀ h ∈ a.heads, b.knows h = true := by
  have hpos : (0 : ℕ) < MAX_WANT := by decide
  rw [wantsFor, List.take_eq_nil_iff, or_iff_right hpos.ne']
  simp only [List.eq_nil_iff_forall_not_mem, mem_sortDedup, List.mem_filter, mem_heads, not_and,
    Bool.not_eq_true', Bool.not_eq_false]

/-- A pull that asks for nothing has nothing to bring. -/
theorem not_brings_of_nil (hnil : wantsFor b (heads a) = []) : ¬ Brings a (WantedHeads a b) b := by
  rintro ⟨c, hc, -⟩
  obtain ⟨⟨r, hr, -, -⟩, -⟩ := firstN_subset _ _ _ hc
  rw [← wantsFor_heads, Set.mem_ofPred_eq, hnil] at hr
  simp at hr

theorem pull_inv (hq : Names P F Q) (ha : LoopInv P F Q a [] []) (hb : LoopInv P F Q b [] []) :
    LoopInv P F Q (pull P F b a).1 [] [] ∧ SameSetup b (pull P F b a).1 ∧
      Grows b (pull P F b a).1 := by
  unfold pull onHave
  dsimp only
  by_cases hnil : wantsFor b (heads a) = []
  · rw [if_pos hnil]
    exact ⟨hb, ⟨rfl, rfl⟩, fun _ _ h => h⟩
  · rw [if_neg hnil]
    exact answer_inv hq ha hb (length_wantsFor b (heads a))

/-- A pull adds a node exactly if there is room and the answer to the heads
that `b` does not know brings one. -/
theorem pull_iff (hq : Names P F Q) (ha : LoopInv P F Q a [] []) (hb : LoopInv P F Q b [] []) :
    (¬ (b.nodes.size < b.cfg.max_nodes ∧ Brings a (WantedHeads a b) b) →
      (pull P F b a).1.nodes = b.nodes) ∧
    (b.nodes.size < b.cfg.max_nodes → Brings a (WantedHeads a b) b →
      ∃ c ∈ (pull P F b a).1.nodes, c ∉ b.nodes) := by
  have hanswer := answer_iff hq ha hb (length_wantsFor b (heads a))
  rw [wantsFor_heads] at hanswer
  unfold pull onHave
  dsimp only
  by_cases hnil : wantsFor b (heads a) = []
  · rw [if_pos hnil]
    exact ⟨fun _ => rfl, fun _ h => absurd h (not_brings_of_nil hnil)⟩
  · rw [if_neg hnil]
    exact hanswer

end

end Sync

end Secdogie.Graph
