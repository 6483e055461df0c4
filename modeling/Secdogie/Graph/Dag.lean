/-
# `Secdogie.Graph.Dag` — the store of signed deltas and its topology view

`insertWire` is the only way in.  It checks, in this order, the signature,
that the signer is the author, that the author is trusted, the schema, and,
once every parent is present, the lamport clock.  A delta whose parents have
not arrived is held as an orphan and promoted when they do.

The source mutates one store.  Here every routine takes the store and
returns the next one; `insertValue` returns the store beside its result, so
that "a rejected delta changes nothing" is a statement about it.

The worklist of `promote` is bounded: a round takes one cid off the list and
puts on it one cid for each orphan it removes, so the number of orphans and
the one cid it starts with is enough fuel (`promoteLoop_done` in
`Secdogie.Graph.DagInvariant`).
-/
import Secdogie.Lib.StrMap
import Secdogie.Graph.Delta

namespace Secdogie.Graph

structure Config where
  trusted_authors : List String
  max_nodes : Nat := 100000
  max_orphans : Nat := 1024
  max_envelope_bytes : Nat := 64 * 1024

structure Node where
  cid : String
  delta : GraphDelta
  /-- the envelope's canonical text, as it travels -/
  wire : String
deriving DecidableEq

inductive Outcome where
  | inserted (cid : String) (promoted : List String) (dropped : List (String × String))
  | duplicate (cid : String)
  | pending (cid : String) (missing : List String)
deriving DecidableEq

structure Rejected where
  text : String
deriving DecidableEq

structure Observation where
  content_hash : String
  byte_len : Nat
deriving DecidableEq

structure StateInfo where
  origin : String
  route : String
  query_keys : List String
deriving DecidableEq

/-- Grow-only sets: states by key, references, observations by state key. -/
structure TopologyView where
  states : StrMap StateInfo := ∅
  references : Finset Reference := ∅
  observations : StrMap (Finset Observation) := ∅

namespace TopologyView

variable (P : Prims) (F : Type) [FloatCodec F]

/-- One operation, added to the view. -/
def applyOp (view : TopologyView) : Op → TopologyView
  | .addState origin route query_keys =>
      let key := stateKey P F origin route query_keys
      if view.states.contains key then view
      else { view with states := view.states.insert key ⟨origin, route, query_keys⟩ }
  | .addReference r => { view with references := insert r view.references }
  | .addObservation state content_hash byte_len =>
      let seen := (view.observations[state]?).getD ∅
      { view with
        observations := view.observations.insert state (insert ⟨content_hash, byte_len⟩ seen) }

def apply (view : TopologyView) (ops : List Op) : TopologyView := ops.foldl (applyOp P F) view

end TopologyView

structure DagStore where
  trust : Trust
  cfg : Config
  nodes : StrMap Node := ∅
  heads : StrSet := ∅
  orphans : StrMap Node := ∅
  orphan_order : List String := []
  waiting_on : StrMap StrSet := ∅
  view : TopologyView := {}

namespace DagStore

def new (cfg : Config) : Except Rejected DagStore :=
  match Trust.new cfg.trusted_authors with
  | .ok trust => .ok { trust := trust, cfg := cfg }
  | .error e => .error ⟨e⟩

/-- Known as a node or held as an orphan: no need to ask a peer for it. -/
def knows (s : DagStore) (cid : String) : Bool := s.nodes.contains cid || s.orphans.contains cid

/-- Parents some held orphan is still waiting for. -/
def missingParents (s : DagStore) : List String := s.waiting_on.keys.filter (fun c => !s.knows c)

/-- The parents of a delta that are not nodes. -/
def missing (s : DagStore) (d : GraphDelta) : List String :=
  d.parents.filter (fun p => !s.nodes.contains p)

/-- The greatest lamport among the parents that are nodes, or 0. -/
def maxLamport (nodes : StrMap Node) (parents : List String) : Nat :=
  ((parents.filterMap (fun p => nodes[p]?)).map (fun n => n.delta.lamport)).foldl max 0

def expectedLamport (s : DagStore) (d : GraphDelta) : Nat := 1 + maxLamport s.nodes d.parents

/-- Removes `w` from the waiters of `p`, and the entry with the last of
them. -/
def unwait (w : String) (waiting_on : StrMap StrSet) (p : String) : StrMap StrSet :=
  match waiting_on[p]? with
  | none => waiting_on
  | some ws => if ws.erase w = ∅ then waiting_on.erase p else waiting_on.insert p (ws.erase w)

def forgetOrphan (s : DagStore) (cid : String) : DagStore :=
  let s := match s.orphans[cid]? with
    | none => s
    | some o => { s with
        orphans := s.orphans.erase cid
        waiting_on := o.delta.parents.foldl (unwait cid) s.waiting_on }
  { s with orphan_order := s.orphan_order.filter (· != cid) }

/-- Adds `w` to the waiters of `p`. -/
def wait (w : String) (waiting_on : StrMap StrSet) (p : String) : StrMap StrSet :=
  waiting_on.insert p (((waiting_on[p]?).getD ∅).insert w)

/-- Makes room for one more orphan, by dropping the oldest when the buffer
is full. -/
def evict (s : DagStore) : DagStore :=
  if s.cfg.max_orphans ≤ s.orphans.size then
    match s.orphan_order with
    | [] => s
    | old :: rest => forgetOrphan { s with orphan_order := rest } old
  else s

def hold (s : DagStore) (node : Node) : DagStore :=
  let s := s.evict
  { s with
    waiting_on := (s.missing node.delta).foldl (wait node.cid) s.waiting_on
    orphan_order := s.orphan_order ++ [node.cid]
    orphans := s.orphans.insert node.cid node }

section

variable (P : Prims) (F : Type) [FloatCodec F]

def accept (s : DagStore) (node : Node) : Except Rejected DagStore :=
  let want := s.expectedLamport node.delta
  if node.delta.lamport ≠ want then
    .error ⟨s!"lamport must be 1 + max(parent lamport) = {want}, got {node.delta.lamport}"⟩
  else if s.cfg.max_nodes ≤ s.nodes.size then
    .error ⟨"store full: v1 never evicts, so it refuses new deltas"⟩
  else .ok { s with
    heads := (node.delta.parents.foldl (fun heads p => heads.erase p) s.heads).insert node.cid
    view := s.view.apply P F node.delta.ops
    nodes := s.nodes.insert node.cid node }

/-- What `promote` works on. -/
structure Promotion where
  store : DagStore
  work : List String
  promoted : List String := []
  dropped : List (String × String) := []

/-- One waiter of a parent that has arrived. -/
def promoteOne (st : Promotion) (w : String) : Promotion :=
  match st.store.orphans[w]? with
  | none => st
  | some node =>
      if node.delta.parents.all (fun p => st.store.nodes.contains p) then
        let store := st.store.forgetOrphan w
        match accept P F store node with
        | .ok store =>
            { st with store := store, work := w :: st.work, promoted := st.promoted ++ [w] }
        | .error e => { st with store := store, dropped := st.dropped ++ [(w, e.text)] }
      else st

/-- Takes one cid off the worklist. -/
def promoteRound (st : Promotion) (arrived : String) (work : List String) : Promotion :=
  let st := { st with work := work }
  match st.store.waiting_on[arrived]? with
  | none => st
  | some waiters =>
      let store := { st.store with waiting_on := st.store.waiting_on.erase arrived }
      waiters.toList.foldl (promoteOne P F) { st with store := store }

def promoteLoop : Nat → Promotion → Promotion
  | 0, st => st
  | fuel + 1, st =>
      match st.work with
      | [] => st
      | arrived :: work => promoteLoop fuel (promoteRound P F st arrived work)

/-- Inserts every orphan that `cid`'s arrival completed, transitively. -/
def promote (s : DagStore) (cid : String) : Promotion :=
  promoteLoop P F (s.orphans.size + 1) { store := s, work := [cid] }

/-- What `insertValue` does with a delta it does not know yet. -/
def insertNode (s : DagStore) (node : Node) : Except Rejected Outcome × DagStore :=
  let missing := s.missing node.delta
  if missing ≠ [] then (.ok (.pending node.cid missing), s.hold node)
  else
    match accept P F s node with
    | .error e => (.error e, s)
    | .ok s =>
        let st := promote P F s node.cid
        (.ok (.inserted node.cid st.promoted st.dropped), st.store)

end

section

variable {F : Type} [FloatCodec F] (P : Prims)

/-- The checks before the schema: the signature, that the signer is the
author, that the author is trusted. -/
def authenticate (trust : Trust) (v : Value F) : Except Rejected (Verified F) :=
  match v.asObj with
  | none => .error ⟨"envelope must be an object"⟩
  | some m =>
      match verify P m with
      | .error e => .error ⟨e.reason⟩
      | .ok ver =>
          if (ver.payload.asObj.bind (fun p => objGet p "author")).bind Value.asStr
              ≠ some ver.signer then .error ⟨"signer is not the author"⟩
          else if !trust.contains ver.signer then .error ⟨"untrusted author"⟩
          else .ok ver

def insertValue (s : DagStore) (v : Value F) : Except Rejected Outcome × DagStore :=
  match authenticate P s.trust v with
  | .error e => (.error e, s)
  | .ok ver =>
      let cid := sha256Hex P ver.payload_bytes
      if s.nodes.contains cid then (.ok (.duplicate cid), s)
      else
        match s.orphans[cid]? with
        | some o => (.ok (.pending cid (s.missing o.delta)), s)
        | none =>
            match parsePayload P ver.payload with
            | .error e => (.error ⟨e.text⟩, s)
            | .ok d => insertNode P F s ⟨cid, d, toStr v⟩

/-- Inserts one envelope given as JSON text. -/
def insertWire (F : Type) [FloatCodec F] (s : DagStore) (wire : String) :
    Except Rejected Outcome × DagStore :=
  if s.cfg.max_envelope_bytes < wire.utf8ByteSize then (.error ⟨"envelope too large"⟩, s)
  else
    match parse (F := F) wire with
    | .error e =>
        (.error ⟨s!"not canonical JSON: {e.reason} at byte {e.offset}"⟩, s)
    | .ok v => insertValue P s v

/-- The store after a sequence of envelopes. -/
def insertWires (F : Type) [FloatCodec F] (s : DagStore) (wires : List String) : DagStore :=
  wires.foldl (fun s w => (insertWire P F s w).2) s

end

/-! ## Reading the DAG -/

/-- The node cids that a walk has not seen. -/
def unseen (s : DagStore) (seen : StrSet) : List String :=
  s.nodes.keys.filter (fun c => !seen.contains c)

/-- The parents of `c` that are nodes, if `c` is one. -/
def nodeParents (s : DagStore) (c : String) : List String :=
  match s.nodes[c]? with
  | none => []
  | some n => n.delta.parents.filter (fun p => s.nodes.contains p)

theorem unseen_insert_lt {s : DagStore} {seen : StrSet} {c : String} {n : Node}
    (hc : c ∉ seen) (hn : s.nodes[c]? = some n) :
    (s.unseen (seen.insert c)).length < (s.unseen seen).length := by
  have hsub : s.unseen (seen.insert c) = (s.unseen seen).filter (fun a => decide (a ≠ c)) := by
    rw [unseen, unseen, List.filter_filter]
    refine List.filter_congr (fun a _ => ?_)
    rw [Bool.eq_iff_iff]
    simp [ne_comm]
  rw [hsub]
  refine List.length_filter_lt_length_iff_exists.mpr ⟨c, ?_, by simp⟩
  exact List.mem_filter.mpr
    ⟨Std.ExtTreeMap.mem_keys.mpr (StrMap.mem_of_get hn), by simp [hc]⟩

theorem unseen_insert_le (s : DagStore) (seen : StrSet) (c : String) :
    (s.unseen (seen.insert c)).length ≤ (s.unseen seen).length := by
  refine List.Sublist.length_le (List.monotone_filter_right _ (fun a ha => ?_))
  simp only [StrSet.contains_eq, StrSet.mem_insert, Bool.not_eq_true', decide_eq_false_iff_not,
    not_or] at ha ⊢
  exact ha.2

/-- The walk of `ancestors`: `stack` is still to visit, `seen` was. -/
def walk (s : DagStore) (seen : StrSet) : List String → StrSet
  | [] => seen
  | c :: stack =>
      if c ∈ seen then walk s seen stack
      else walk s (seen.insert c) ((s.nodeParents c).reverse ++ stack)
termination_by stack => ((s.unseen seen).length, stack.length)
decreasing_by
  · exact Prod.Lex.right _ (by simp)
  · next hc =>
    cases hn : s.nodes[c]? with
    | none =>
        have hle := unseen_insert_le s seen c
        rcases hle.lt_or_eq with hlt | heq
        · exact Prod.Lex.left _ _ hlt
        · simp only [nodeParents, hn, List.reverse_nil, List.nil_append, heq]
          exact Prod.Lex.right _ (by simp)
    | some n => exact Prod.Lex.left _ _ (unseen_insert_lt hc hn)

/-- Every known ancestor of `cids`, inclusive. -/
def ancestors (s : DagStore) (cids : List String) : StrSet :=
  walk s ∅ (cids.filter (fun c => s.nodes.contains c)).reverse

/-- The order of `topo`: by lamport, then by cid. -/
def topoLe (a b : Node) : Bool :=
  decide (a.delta.lamport < b.delta.lamport ∨
    (a.delta.lamport = b.delta.lamport ∧ a.cid ≤ b.cid))

/-- Nodes in a topological order. -/
def topo (s : DagStore) (cids : List String) : List Node :=
  (cids.filterMap (fun c => s.nodes[c]?)).mergeSort topoLe

end DagStore

end Secdogie.Graph
