/-
# `Secdogie.Graph.Sync` — have/want anti-entropy over the DAG

    A -> B  graph_have   {heads}
    B -> A  graph_want   {cids, have_heads}
    A -> B  graph_deltas {envelopes}

The messages are JSON values; a want is carried around as the record `Want`
and `wantMessage` is its value.  `pull` is one lossless exchange as the
tests of the source run it, and `followUp` the answer to the want that
`onDeltas` returns.
-/
import Secdogie.Graph.DagInvariant

namespace Secdogie.Graph

namespace Sync

def HAVE : String := "graph_have"
def WANT : String := "graph_want"
def DELTAS : String := "graph_deltas"
def MAX_BATCH : Nat := 256
def MAX_WANT : Nat := 256

/-- The heads of the store, in order. -/
def heads (s : DagStore) : List String := s.heads.toList

structure Want where
  cids : List String
  have_heads : List String

section Messages

variable {F : Type}

def haveMessage (s : DagStore) : Value F :=
  obj [("kind", .str HAVE), ("heads", strArr (heads s))]

def wantMessage (w : Want) : Value F :=
  obj [("kind", .str WANT), ("cids", strArr w.cids), ("have_heads", strArr w.have_heads)]

def deltasMessage (envelopes : List String) : Value F :=
  obj [("kind", .str DELTAS), ("envelopes", strArr envelopes)]

end Messages

/-- `sort` and `dedup`: each string once, in order. -/
def sortDedup (l : List String) : List String := (Std.ExtTreeSet.ofList l compare).toList

/-- The heads a peer advertised that this store neither holds nor waits on. -/
def wantsFor (s : DagStore) (remote_heads : List String) : List String :=
  (sortDedup (remote_heads.filter (fun c => !s.knows c))).take MAX_WANT

def want (s : DagStore) (cids : List String) : Want := ⟨cids, heads s⟩

/-- Answer to a peer's have: a want, or `none` when nothing is missing. -/
def onHave (s : DagStore) (remote_heads : List String) : Option Want :=
  let cids := wantsFor s remote_heads
  if cids = [] then none else some (want s cids)

/-- The cids a want asks for, with their ancestors, less what is under the
requester's heads. -/
def toSend (s : DagStore) (cids their_heads : List String) : StrSet :=
  let theirs := s.ancestors their_heads
  (cids.take MAX_WANT).foldl (fun send c =>
    (s.ancestors [c]).toList.foldl (fun send a =>
      if a ∈ theirs then send else send.insert a) send) ∅

/-- The nodes answering a want, parents first, at most `MAX_BATCH`. -/
def batch (s : DagStore) (cids their_heads : List String) : List Node :=
  (s.topo (toSend s cids their_heads).toList).take MAX_BATCH

/-- The envelopes answering a want. -/
def onWant (s : DagStore) (cids their_heads : List String) : List String :=
  (batch s cids their_heads).map Node.wire

structure IngestReport where
  inserted : List String := []
  duplicate : Nat := 0
  pending : List String := []
  rejected : List (Nat × String) := []
deriving DecidableEq

section

variable (P : Prims) (F : Type) [FloatCodec F]

/-- One envelope of a batch, the `i`-th. -/
def ingestOne (acc : DagStore × IngestReport) (e : String × Nat) : DagStore × IngestReport :=
  let (s, rep) := acc
  let (outcome, s) := s.insertWire P F e.1
  match outcome with
  | .ok (.inserted cid promoted dropped) =>
      (s, { rep with
        inserted := rep.inserted ++ cid :: promoted
        rejected := rep.rejected ++ dropped.map (fun d => (e.2, d.2)) })
  | .ok (.duplicate _) => (s, { rep with duplicate := rep.duplicate + 1 })
  | .ok (.pending cid _) => (s, { rep with pending := rep.pending ++ [cid] })
  | .error err => (s, { rep with rejected := rep.rejected ++ [(e.2, err.text)] })

/-- Ingests a batch: the store, the report and, if parents are still
missing, the want to send back. -/
def onDeltas (s : DagStore) (envelopes : List String) : DagStore × IngestReport × Option Want :=
  let (s, rep) := (envelopes.take MAX_BATCH).zipIdx.foldl (ingestOne P F) (s, {})
  let rep := { rep with pending := rep.pending.filter (fun c => !s.nodes.contains c) }
  let missing := wantsFor s s.missingParents
  (s, rep, if missing = [] then none else some (want s missing))

/-- `a` answers a want of `b`, and `b` ingests the answer. -/
def answer (b a : DagStore) (w : Want) : DagStore × Option Want :=
  let (b, _, next) := onDeltas P F b (onWant a w.cids w.have_heads)
  (b, next)

/-- One lossless pull: `b` learns the heads of `a`, asks, and ingests the
answer. -/
def pull (b a : DagStore) : DagStore × Option Want :=
  match onHave b (heads a) with
  | none => (b, none)
  | some w => answer P F b a w

/-- The pull, and `n` rounds of the follow-up wants it leads to. -/
def pullFollow (b a : DagStore) : Nat → DagStore × Option Want
  | 0 => pull P F b a
  | n + 1 =>
      match pullFollow b a n with
      | (b, none) => (b, none)
      | (b, some w) => answer P F b a w

end

/-! ## What the messages carry -/

section

variable {F : Type}

/-- The strings under a key of a message. -/
def strs (m : List (String × Value F)) (k : String) : List String :=
  ((objGet m k).bind Value.asArr).getD [] |>.filterMap Value.asStr

theorem filterMap_asStr (l : List String) :
    l.filterMap (fun s => (Value.str s : Value F).asStr) = l := by
  simp [Value.asStr]

/-- A want is read back from its message. -/
theorem strs_wantMessage (w : Want) : ∃ m, (wantMessage w : Value F) = .obj m ∧
    strs m "cids" = w.cids ∧ strs m "have_heads" = w.have_heads := by
  have h1 : "cids" < "kind" := by decide
  have h2 : ¬ "have_heads" < "cids" := by decide
  have h3 : "have_heads" < "kind" := by decide
  refine ⟨[("cids", strArr w.cids), ("have_heads", strArr w.have_heads), ("kind", .str WANT)],
    ?_, ?_, ?_⟩
  · simp [wantMessage, obj, objInsert, h1, h2, h3]
  · simp [strs, objGet, strArr, Value.asArr, filterMap_asStr]
  · simp [strs, objGet, strArr, Value.asArr, filterMap_asStr]

end

/-! ## Ancestors -/

/-- `c` is `r` or an ancestor of it, along parents that are nodes. -/
def Ancestor (s : DagStore) : String → String → Prop :=
  Relation.ReflTransGen (fun c p => p ∈ s.nodeParents c)

theorem walk_sub {s : DagStore} {seen : StrSet} {stack : List String} {c : String}
    (h : c ∈ s.walk seen stack) : c ∈ seen ∨ ∃ r ∈ stack, Ancestor s r c := by
  induction seen, stack using DagStore.walk.induct s with
  | case1 seen =>
      rw [DagStore.walk] at h
      exact .inl h
  | case2 seen r stack hr ih =>
      rw [DagStore.walk, if_pos hr] at h
      exact (ih h).imp_right (fun ⟨x, hx, hxc⟩ => ⟨x, List.mem_cons_of_mem _ hx, hxc⟩)
  | case3 seen r stack hr ih =>
      rw [DagStore.walk, if_neg hr] at h
      rcases ih h with hc | ⟨x, hx, hxc⟩
      · rcases StrSet.mem_insert.mp hc with rfl | hc
        · exact .inr ⟨r, by simp, .refl⟩
        · exact .inl hc
      · rcases List.mem_append.mp hx with hx | hx
        · exact .inr ⟨r, by simp, .head (List.mem_reverse.mp hx) hxc⟩
        · exact .inr ⟨x, List.mem_cons_of_mem _ hx, hxc⟩

/-- The walk keeps what it has seen and gets to everything on its stack; and
if the parents of what it has seen are seen or on the stack, its result is
closed under parents. -/
theorem walk_closed {s : DagStore} {seen : StrSet} {stack : List String}
    (hseen : ∀ c ∈ seen, ∀ p ∈ s.nodeParents c, p ∈ seen ∨ p ∈ stack) :
    (∀ c ∈ seen, c ∈ s.walk seen stack) ∧ (∀ c ∈ stack, c ∈ s.walk seen stack) ∧
      ∀ c ∈ s.walk seen stack, ∀ p ∈ s.nodeParents c, p ∈ s.walk seen stack := by
  induction seen, stack using DagStore.walk.induct s with
  | case1 seen =>
      rw [DagStore.walk]
      exact ⟨fun _ hc => hc, by simp, fun c hc p hp => by simpa using hseen c hc p hp⟩
  | case2 seen r stack hr ih =>
      rw [DagStore.walk, if_pos hr]
      obtain ⟨h1, h2, h3⟩ := ih (fun c hc p hp => by
        rcases hseen c hc p hp with hp | hp
        · exact .inl hp
        · rcases List.mem_cons.mp hp with rfl | hp
          · exact .inl hr
          · exact .inr hp)
      exact ⟨h1, fun c hc => (List.mem_cons.mp hc).elim (fun heq => heq ▸ h1 r hr) (h2 c), h3⟩
  | case3 seen r stack hr ih =>
      rw [DagStore.walk, if_neg hr]
      obtain ⟨h1, h2, h3⟩ := ih (fun c hc p hp => by
        rw [StrSet.mem_insert] at hc ⊢
        rw [List.mem_append, List.mem_reverse]
        rcases hc with rfl | hc
        · exact .inr (.inl hp)
        · rcases hseen c hc p hp with hp | hp
          · exact .inl (.inr hp)
          · rcases List.mem_cons.mp hp with rfl | hp
            · exact .inl (.inl rfl)
            · exact .inr (.inr hp))
      refine ⟨fun c hc => h1 c (StrSet.mem_insert.mpr (.inr hc)), fun c hc => ?_, h3⟩
      rcases List.mem_cons.mp hc with rfl | hc
      · exact h1 c (StrSet.mem_insert.mpr (.inl rfl))
      · exact h2 c (List.mem_append.mpr (.inr hc))

theorem mem_ancestors {s : DagStore} {cids : List String} {c : String} :
    c ∈ s.ancestors cids ↔ ∃ r ∈ cids, r ∈ s.nodes ∧ Ancestor s r c := by
  unfold DagStore.ancestors
  have hempty : ∀ c ∈ (∅ : StrSet), ∀ p ∈ s.nodeParents c,
      p ∈ (∅ : StrSet) ∨ p ∈ (cids.filter (fun c => s.nodes.contains c)).reverse :=
    fun c hc => absurd hc Std.ExtTreeSet.not_mem_empty
  obtain ⟨-, hstack, hclosed⟩ := walk_closed hempty
  constructor
  · intro h
    rcases walk_sub h with hc | ⟨r, hr, hrc⟩
    · exact absurd hc Std.ExtTreeSet.not_mem_empty
    · rw [List.mem_reverse, List.mem_filter] at hr
      exact ⟨r, hr.1, by simpa using hr.2, hrc⟩
  · rintro ⟨r, hr, hrn, hrc⟩
    induction hrc with
    | refl => exact hstack r (by simp [hr, hrn])
    | tail _ hp ih => exact hclosed _ ih _ hp

theorem mem_toSend {s : DagStore} {cids their_heads : List String} {c : String} :
    c ∈ toSend s cids their_heads ↔ (∃ r ∈ cids.take MAX_WANT, r ∈ s.nodes ∧ Ancestor s r c) ∧
      ¬ ∃ r ∈ their_heads, r ∈ s.nodes ∧ Ancestor s r c := by
  have hinner : ∀ (l : List String) (send : StrSet), c ∈ l.foldl (fun send a =>
      if a ∈ s.ancestors their_heads then send else send.insert a) send
        ↔ c ∈ send ∨ (c ∈ l ∧ c ∉ s.ancestors their_heads) := by
    intro l
    induction l with
    | nil => simp
    | cons a l ih =>
        intro send
        rw [List.foldl_cons, ih, List.mem_cons]
        split_ifs with ha
        · by_cases hca : c = a
          · subst hca
            tauto
          · tauto
        · rw [StrSet.mem_insert]
          by_cases hca : c = a
          · subst hca
            tauto
          · have : a ≠ c := Ne.symm hca
            tauto
  have houter : ∀ (l : List String) (send : StrSet), c ∈ l.foldl (fun send r =>
      (s.ancestors [r]).toList.foldl (fun send a =>
        if a ∈ s.ancestors their_heads then send else send.insert a) send) send
        ↔ c ∈ send ∨ (∃ r ∈ l, c ∈ s.ancestors [r]) ∧ c ∉ s.ancestors their_heads := by
    intro l
    induction l with
    | nil => simp
    | cons r l ih =>
        intro send
        rw [List.foldl_cons, ih, hinner, Std.ExtTreeSet.mem_toList]
        simp only [List.mem_cons, exists_eq_or_imp]
        tauto
  have hnot : c ∉ (∅ : StrSet) := Std.ExtTreeSet.not_mem_empty
  refine (houter (cids.take MAX_WANT) ∅).trans ?_
  simp only [mem_ancestors, List.mem_singleton, exists_eq_left]
  tauto

end Sync

end Secdogie.Graph
