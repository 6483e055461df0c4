/-
# `Secdogie.Transport.Dht` — finding a peer by asking those nearer to it

Nodes keep the records of others in tables, by the distance of the hashes of
their DIDs.  A lookup asks the nearest DIDs it knows for nearer ones, and those
then, until a round of questions brings no DID that is new.

It may stop so with near DIDs never asked (`unasked`); what holds instead is
`lookup_spec`.
-/
import Secdogie.Lib.OrderedDict
import Secdogie.Transport.Inbound

namespace Secdogie.Transport

open Secdogie.Graph Secdogie.Identity

def ID_BITS : ℕ := 256

/-- The hash of a DID, as a number. -/
def node_id (C : Crypto) (did : String) : ℕ :=
  (C.sha256 did.toUTF8).foldl (fun n b => n * 256 + b.toNat) 0

def xor_distance (a b : ℕ) : ℕ := a ^^^ b

/-- Which bucket a node belongs in; -1 for oneself. -/
def bucket_index (self_id other_id : ℕ) : ℤ := (xor_distance self_id other_id).size - 1

/-- `sorted(dids, key=..)`, by distance from the target -/
def nearest (C : Crypto) (target_id : ℕ) (dids : List String) : List String :=
  dids.insertionSort
    (fun a b => xor_distance (node_id C a) target_id ≤ xor_distance (node_id C b) target_id)

section

variable {F : Type} [PyFloat F] (B : Builtins F) (C : Crypto) (skew : F)

/-! ## Tables -/

/-- A record that somebody verified. -/
def Genuine (rec : PeerRecord F) : Prop :=
  ∃ allowlist now, Inbound.verify_record B C allowlist now skew rec.signed = .ok (some rec)

/-- The buckets hold the DIDs of the records, least recently seen first. -/
structure RoutingTable where
  self_did : String
  k : ℕ
  buckets : ℤ → List String := fun _ => []
  records : OrderedDict String (PeerRecord F) := .empty
  genuine : ∀ did rec, records.get did = some rec → Genuine B C skew rec

namespace RoutingTable

variable {B C skew} (t : RoutingTable B C skew)

/-- `RoutingTable(self_did, k)` -/
def new (self_did : String) (k : ℕ) : RoutingTable B C skew :=
  { self_did, k, genuine := fun _ _ h => nomatch OrderedDict.get_empty.symm.trans h }

theorem genuine_set {records : OrderedDict String (PeerRecord F)} {rec : PeerRecord F}
    (h : ∀ did rec, records.get did = some rec → Genuine B C skew rec) (hrec : Genuine B C skew rec) :
    ∀ did r, (records.set rec.did rec).get did = some r → Genuine B C skew r := by
  intro did r hget
  rw [OrderedDict.get_set] at hget
  split at hget
  · exact Option.some.inj hget ▸ hrec
  · exact h did r hget

theorem genuine_pop {records : OrderedDict String (PeerRecord F)}
    (h : ∀ did rec, records.get did = some rec → Genuine B C skew rec) (k : String) :
    ∀ did r, (records.pop k).get did = some r → Genuine B C skew r := by
  intro did r hget
  rw [OrderedDict.get_pop] at hget
  split at hget
  · exact nomatch hget
  · exact h did r hget

/-- Takes the record in; a full bucket gives up the DID it has not seen for longest (a table
without room for any does not occur). -/
def add (rec : PeerRecord F) (hrec : Genuine B C skew rec) : RoutingTable B C skew × Bool :=
  let cur := t.records.get rec.did
  if rec.did = t.self_did then (t, false)
  else if cur.any (fun cur => PyFloat.lt rec.last_seen cur.last_seen) then (t, false)
  else
    let bidx := bucket_index (node_id C t.self_did) (node_id C rec.did)
    let bucket := t.buckets bidx
    let changed := cur.isNone || cur.any (fun cur => PyFloat.lt cur.last_seen rec.last_seen)
    if rec.did ∈ bucket then
      ({ t with
          buckets := Function.update t.buckets bidx (bucket.erase rec.did ++ [rec.did])
          records := t.records.set rec.did rec
          genuine := genuine_set t.genuine hrec }, changed)
    else if t.k ≤ bucket.length then
      match bucket with
      | [] => (t, false)
      | evicted :: bucket =>
          ({ t with
              buckets := Function.update t.buckets bidx (bucket ++ [rec.did])
              records := (t.records.pop evicted).set rec.did rec
              genuine := genuine_set (genuine_pop t.genuine evicted) hrec }, changed)
    else
      ({ t with
          buckets := Function.update t.buckets bidx (bucket ++ [rec.did])
          records := t.records.set rec.did rec
          genuine := genuine_set t.genuine hrec }, changed)

/-- The known DIDs nearest to the target. -/
def closest (target_id count : ℕ) : List String := (nearest C target_id t.records.keys).take count

end RoutingTable

/-- What nodes answer when they are asked for what they know near a target: records that somebody
verified. -/
structure Network where
  query : String → ℕ → List (PeerRecord F)
  genuine : ∀ to_did target_id, ∀ rec ∈ query to_did target_id, Genuine B C skew rec

variable {B C skew}

/-- Each node answers with the records nearest to the target that its table holds. -/
def Network.ofTables (tables : String → Option (RoutingTable B C skew)) (k : ℕ) :
    Network B C skew where
  query to_did target_id :=
    match tables to_did with
    | none => []
    | some t => (t.closest target_id k).filterMap t.records.get
  genuine to_did target_id rec h := by
    split at h
    · exact nomatch h
    · next t _ =>
        obtain ⟨did, -, hget⟩ := List.mem_filterMap.mp h
        exact t.genuine did rec hget

/-- A genuine record raises nowhere. -/
theorem Genuine.returns {rec : PeerRecord F} (h : Genuine B C skew rec) (allowlist : String → Bool)
    (now : Option F) :
    ∃ r, Inbound.verify_record B C allowlist now skew rec.signed = .ok r := by
  obtain ⟨allowlist', now', hverify⟩ := h
  obtain ⟨hlarge, hentries, -⟩ := Inbound.readable_of_verified hverify
  have htotal : Inbound.RecordTotal B C allowlist now skew rec.signed :=
    Inbound.recordTotal_iff.mpr fun _ => ⟨hlarge, fun _ _ _ => hentries⟩
  obtain ⟨r, hr, -⟩ := htotal
  exact ⟨r, hr⟩

/-- What a lookup takes a genuine record for: no exception is passed over. -/
theorem Genuine.verify_eq {rec : PeerRecord F} (h : Genuine B C skew rec)
    (allowlist : String → Bool) (now : Option F) :
    Inbound.verify_record B C allowlist now skew rec.signed =
      .ok (verify_record B C allowlist now skew rec.signed) := by
  obtain ⟨r, hr⟩ := h.returns allowlist now
  rw [← Inbound.toOption_verify_record, hr]
  rfl

theorem signed_of_verified {allowlist : String → Bool} {now : Option F} {obj : Value F}
    {rec : PeerRecord F} (h : verify_record B C allowlist now skew obj = some rec) :
    rec.signed = obj := by
  rw [← Inbound.toOption_verify_record] at h
  cases hr : Inbound.verify_record B C allowlist now skew obj with
  | error x =>
      rw [hr] at h
      exact nomatch h
  | ok r =>
      rw [hr] at h
      have hsome : r = some rec := h
      exact (Inbound.readable_of_verified (hsome ▸ hr)).2.2

/-! ## The lookup -/

/-- What a lookup knows: DIDs in the order it heard of them, the last record of each, and whom it
has asked. -/
structure Lookup (F : Type) where
  shortlist : List String
  records : StrMap (Value F) := ∅
  queried : Finset String := ∅

/-- Why a lookup stops. -/
inductive Ending where
  | noCandidates
  | noProgress
  | maxRounds
deriving DecidableEq

variable (net : Network B C skew) (allowlist : String → Bool) (now : Option F) (alpha target_id : ℕ)

/-- One record of an answer; the flag says whether there was progress. -/
def receive (p : Lookup F × Bool) (rec : PeerRecord F) : Lookup F × Bool :=
  match verify_record B C allowlist now skew rec.signed with
  | none => p
  | some rec =>
      let st := { p.1 with records := p.1.records.insert rec.did rec.signed }
      if rec.did ∈ st.shortlist then (st, p.2)
      else ({ st with shortlist := st.shortlist ++ [rec.did] }, true)

/-- A question, and its answer. -/
def ask (p : Lookup F × Bool) (to_did : String) : Lookup F × Bool :=
  (net.query to_did target_id).foldl (@receive F _ B C skew allowlist now)
    ({ p.1 with queried := insert to_did p.1.queried }, p.2)

/-- The nearest of those not asked yet. -/
def candidates (C : Crypto) (alpha target_id : ℕ) (st : Lookup F) : List String :=
  (nearest C target_id (st.shortlist.filter (fun d => decide (d ∉ st.queried)))).take alpha

def round (st : Lookup F) : Lookup F × Bool :=
  (candidates C alpha target_id st).foldl (ask net allowlist now target_id) (st, false)

/-- The rounds of a lookup, so many at most. -/
def rounds : ℕ → Lookup F → Lookup F × Ending
  | 0, st => (st, .maxRounds)
  | n + 1, st =>
      if candidates C alpha target_id st = [] then (st, .noCandidates)
      else
        let r := round net allowlist now alpha target_id st
        if r.2 then rounds n r.1 else (r.1, .noProgress)

/-- `_lookup`, with why it stops -/
def lookup (seed : List String) (max_rounds : ℕ) : Lookup F × Ending :=
  rounds net allowlist now alpha target_id max_rounds { shortlist := unique seed }

/-- `ordered` -/
def ordered (C : Crypto) (target_id : ℕ) (st : Lookup F) : List String :=
  nearest C target_id st.shortlist

def find_node (seed : List String) (count : ℕ) : List String :=
  (ordered C target_id (lookup net allowlist now alpha target_id seed ID_BITS).1).take count

def find_peer (target_did : String) (seed : List String) : Option (PeerRecord F) :=
  match (lookup net allowlist now alpha (node_id C target_did) seed ID_BITS).1.records[target_did]? with
  | none => none
  | some signed => verify_record B C allowlist now skew signed

/-! ## What is heard -/

/-- The node answers with this record, and it verifies. -/
def Told (to_did : String) (rec : PeerRecord F) : Prop :=
  ∃ r ∈ net.query to_did target_id, verify_record B C allowlist now skew r.signed = some rec

/-- What hearing these records does to a lookup. -/
structure Hears (heard : PeerRecord F → Prop) (p p' : Lookup F × Bool) : Prop where
  records : ∀ did signed, p'.1.records[did]? = some signed →
    p.1.records[did]? = some signed ∨ ∃ rec, heard rec ∧ rec.did = did ∧ rec.signed = signed
  kept : ∀ did, did ∈ p.1.records → did ∈ p'.1.records
  added : ∀ rec, heard rec → rec.did ∈ p'.1.records ∧ rec.did ∈ p'.1.shortlist
  shortlist : ∀ did ∈ p.1.shortlist, did ∈ p'.1.shortlist
  still : p'.2 = false → p'.1.shortlist = p.1.shortlist ∧ p.2 = false

/-- Each record is of a node that was asked, and of all that were told there is one. -/
structure Heard (st : Lookup F) : Prop where
  sound : ∀ did signed, st.records[did]? = some signed →
    ∃ d ∈ st.queried, ∃ rec, Told net allowlist now target_id d rec ∧ rec.did = did ∧
      rec.signed = signed
  complete : ∀ d ∈ st.queried, ∀ rec, Told net allowlist now target_id d rec →
    rec.did ∈ st.records ∧ rec.did ∈ st.shortlist

/-- The round in which a lookup got no further. -/
structure LastRound (before after : Lookup F) : Prop where
  some_asked : candidates C alpha target_id before ≠ []
  asked : after.queried = before.queried ∪ (candidates C alpha target_id before).toFinset
  /-- the others are no nearer than those who were asked -/
  nearer : ∀ d ∈ after.shortlist, d ∉ after.queried →
    (candidates C alpha target_id before).length = alpha ∧
      ∀ c ∈ candidates C alpha target_id before,
        xor_distance (node_id C c) target_id ≤ xor_distance (node_id C d) target_id
  nothing_new : after.shortlist = before.shortlist
  told : ∀ d ∈ candidates C alpha target_id before, ∀ rec, Told net allowlist now target_id d rec →
    rec.did ∈ before.shortlist

variable {net allowlist now alpha target_id}

omit [PyFloat F] in
theorem Hears.refl (p : Lookup F × Bool) : Hears (fun _ => False) p p where
  records _ _ h := .inl h
  kept _ h := h
  added _ h := h.elim
  shortlist _ h := h
  still h := ⟨rfl, h⟩

omit [PyFloat F] in
theorem Hears.trans {heard heard' : PeerRecord F → Prop} {p q r : Lookup F × Bool}
    (h : Hears heard p q) (h' : Hears heard' q r) : Hears (fun rec => heard rec ∨ heard' rec) p r where
  records did signed hget := by
    rcases h'.records did signed hget with hq | ⟨rec, hrec, hdid, hsigned⟩
    · rcases h.records did signed hq with hp | ⟨rec, hrec, hdid, hsigned⟩
      · exact .inl hp
      · exact .inr ⟨rec, .inl hrec, hdid, hsigned⟩
    · exact .inr ⟨rec, .inr hrec, hdid, hsigned⟩
  kept did hmem := h'.kept did (h.kept did hmem)
  added rec hrec := by
    rcases hrec with hrec | hrec
    · exact ⟨h'.kept _ (h.added rec hrec).1, h'.shortlist _ (h.added rec hrec).2⟩
    · exact h'.added rec hrec
  shortlist did hmem := h'.shortlist did (h.shortlist did hmem)
  still hflag := by
    obtain ⟨hr, hq⟩ := h'.still hflag
    obtain ⟨hq', hp⟩ := h.still hq
    exact ⟨hr.trans hq', hp⟩

omit [PyFloat F] in
theorem Hears.congr {heard heard' : PeerRecord F → Prop} {p q : Lookup F × Bool}
    (h : Hears heard p q) (hiff : ∀ rec, heard' rec ↔ heard rec) : Hears heard' p q := by
  rwa [funext fun rec => propext (hiff rec)]

omit [PyFloat F] in
/-- A loop hears what its steps hear. -/
theorem Hears.foldl {α : Type} {step : Lookup F × Bool → α → Lookup F × Bool}
    {heard : α → PeerRecord F → Prop} (hstep : ∀ p a, Hears (heard a) p (step p a)) :
    ∀ (l : List α) (p : Lookup F × Bool), Hears (fun rec => ∃ a ∈ l, heard a rec) p (l.foldl step p)
  | [], p => (Hears.refl p).congr fun rec => by simp
  | a :: l, p => ((hstep p a).trans (Hears.foldl hstep l (step p a))).congr fun rec =>
      List.exists_mem_cons_iff _ _ _

theorem receive_grows (p : Lookup F × Bool) (r : PeerRecord F) :
    Hears (fun rec => verify_record B C allowlist now skew r.signed = some rec) p
      (@receive F _ B C skew allowlist now p r) := by
  rw [receive]
  cases hverify : verify_record B C allowlist now skew r.signed with
  | none => exact (Hears.refl p).congr fun rec => by simp
  | some rec =>
      dsimp only
      have hrecords : ∀ did signed, (p.1.records.insert rec.did rec.signed)[did]? = some signed →
          p.1.records[did]? = some signed ∨
            ∃ rec', some rec = some rec' ∧ rec'.did = did ∧ rec'.signed = signed := by
        intro did signed hget
        rw [StrMap.get_insert] at hget
        split at hget
        · next hdid => exact .inr ⟨rec, rfl, hdid, Option.some.inj hget⟩
        · exact .inl hget
      have hkept : ∀ did, did ∈ p.1.records → did ∈ p.1.records.insert rec.did rec.signed :=
        fun did hmem => Std.ExtTreeMap.mem_insert.mpr (.inr hmem)
      have hadded : rec.did ∈ p.1.records.insert rec.did rec.signed :=
        Std.ExtTreeMap.mem_insert_self
      split
      · next hknown =>
          refine ⟨hrecords, hkept, fun rec' hrec' => ?_, fun _ h => h, fun h => ⟨rfl, h⟩⟩
          obtain rfl := Option.some.inj hrec'
          exact ⟨hadded, hknown⟩
      · refine ⟨hrecords, hkept, fun rec' hrec' => ?_,
          fun _ h => List.mem_append_left _ h, fun h => (nomatch h)⟩
        obtain rfl := Option.some.inj hrec'
        exact ⟨hadded, List.mem_append_right _ (List.mem_singleton_self _)⟩

theorem ask_grows (p : Lookup F × Bool) (to_did : String) :
    Hears (Told net allowlist now target_id to_did) p (ask net allowlist now target_id p to_did) := by
  have hstep : ∀ p r, Hears (fun rec => verify_record B C allowlist now skew r.signed = some rec) p
      (@receive F _ B C skew allowlist now p r) := fun p r => receive_grows p r
  have h := Hears.foldl hstep (net.query to_did target_id)
    ({ p.1 with queried := insert to_did p.1.queried }, p.2)
  exact ⟨h.records, h.kept, h.added, h.shortlist, h.still⟩

theorem round_grows (st : Lookup F) :
    Hears (fun rec => ∃ d ∈ candidates C alpha target_id st, Told net allowlist now target_id d rec)
      (st, false) (round net allowlist now alpha target_id st) :=
  Hears.foldl (fun p to_did => ask_grows p to_did) _ _

/-! ## Who is asked -/

theorem receive_queried (p : Lookup F × Bool) (r : PeerRecord F) :
    (@receive F _ B C skew allowlist now p r).1.queried = p.1.queried := by
  rw [receive]
  split
  · rfl
  · dsimp only
    split
    · rfl
    · rfl

theorem receiveAll_queried : ∀ (l : List (PeerRecord F)) (p : Lookup F × Bool),
    (l.foldl (@receive F _ B C skew allowlist now) p).1.queried = p.1.queried
  | [], _ => rfl
  | r :: l, p => (receiveAll_queried l _).trans (receive_queried p r)

theorem askAll_queried : ∀ (l : List String) (p : Lookup F × Bool),
    (l.foldl (ask net allowlist now target_id) p).1.queried = p.1.queried ∪ l.toFinset
  | [], p => by simp
  | d :: l, p => by
      rw [List.foldl_cons, askAll_queried l, ask, receiveAll_queried, List.toFinset_cons,
        Finset.insert_union, Finset.union_insert]

theorem round_queried (st : Lookup F) : (round net allowlist now alpha target_id st).1.queried =
    st.queried ∪ (candidates C alpha target_id st).toFinset := askAll_queried _ _

theorem round_heard {st : Lookup F} (h : Heard net allowlist now target_id st) :
    Heard net allowlist now target_id (round net allowlist now alpha target_id st).1 := by
  have hgrows : Hears (fun rec => ∃ d ∈ candidates C alpha target_id st,
      Told net allowlist now target_id d rec) (st, false)
      (round net allowlist now alpha target_id st) := round_grows st
  refine ⟨fun did signed hget => ?_, fun d hd rec hrec => ?_⟩
  · rw [round_queried]
    rcases hgrows.records did signed hget with hold | ⟨rec, ⟨d, hd, htold⟩, hdid, hsigned⟩
    · obtain ⟨d, hd, rec, hrec⟩ := h.sound did signed hold
      exact ⟨d, Finset.mem_union_left _ hd, rec, hrec⟩
    · exact ⟨d, Finset.mem_union_right _ (List.mem_toFinset.mpr hd), rec, htold, hdid, hsigned⟩
  · rw [round_queried, Finset.mem_union, List.mem_toFinset] at hd
    rcases hd with hd | hd
    · obtain ⟨hmem, hshort⟩ := h.complete d hd rec hrec
      exact ⟨hgrows.kept _ hmem, hgrows.shortlist _ hshort⟩
    · exact hgrows.added rec ⟨d, hd, hrec⟩

theorem rounds_heard : ∀ (n : ℕ) {st : Lookup F}, Heard net allowlist now target_id st →
    Heard net allowlist now target_id (rounds net allowlist now alpha target_id n st).1
  | 0, _, h => h
  | n + 1, st, h => by
      rw [rounds]
      split
      · exact h
      · dsimp only
        split
        · exact rounds_heard n (round_heard h)
        · exact round_heard h

/-! ## When it stops -/

theorem mem_nearest {C : Crypto} {target_id : ℕ} {dids : List String} {did : String} :
    did ∈ nearest C target_id dids ↔ did ∈ dids := List.mem_insertionSort _

theorem nearest_sorted (C : Crypto) (target_id : ℕ) (dids : List String) :
    (nearest C target_id dids).Pairwise (fun a b =>
      xor_distance (node_id C a) target_id ≤ xor_distance (node_id C b) target_id) := by
  have htotal : Std.Total (fun a b : String =>
      xor_distance (node_id C a) target_id ≤ xor_distance (node_id C b) target_id) :=
    ⟨fun a b => le_total _ _⟩
  have htrans : IsTrans String (fun a b : String =>
      xor_distance (node_id C a) target_id ≤ xor_distance (node_id C b) target_id) :=
    ⟨fun a b c hab hbc => hab.trans hbc⟩
  exact List.pairwise_insertionSort _ dids

omit [PyFloat F] in
/-- Nobody is left to ask when everybody was asked. -/
theorem all_queried {st : Lookup F} (h : candidates C alpha target_id st = []) :
    alpha = 0 ∨ ∀ did ∈ st.shortlist, did ∈ st.queried := by
  rcases List.take_eq_nil_iff.mp h with halpha | hnil
  · exact .inl halpha
  · refine .inr fun did hdid => ?_
    by_contra hnot
    have hmem : did ∈ nearest C target_id
        (st.shortlist.filter (fun d => decide (d ∉ st.queried))) :=
      mem_nearest.mpr (List.mem_filter.mpr ⟨hdid, decide_eq_true hnot⟩)
    rw [hnil] at hmem
    exact nomatch hmem

omit [PyFloat F] in
/-- Those who are not asked in a round are no nearer than those who are. -/
theorem candidates_nearer {st : Lookup F} {d : String} (hd : d ∈ st.shortlist)
    (hold : d ∉ st.queried) (hout : d ∉ candidates C alpha target_id st) :
    (candidates C alpha target_id st).length = alpha ∧ ∀ c ∈ candidates C alpha target_id st,
      xor_distance (node_id C c) target_id ≤ xor_distance (node_id C d) target_id := by
  have hmem : d ∈ nearest C target_id (st.shortlist.filter (fun d => decide (d ∉ st.queried))) :=
    mem_nearest.mpr (List.mem_filter.mpr ⟨hd, decide_eq_true hold⟩)
  have hsorted := nearest_sorted C target_id (st.shortlist.filter (fun d => decide (d ∉ st.queried)))
  rw [candidates] at hout ⊢
  rw [← List.take_append_drop alpha (nearest C target_id _)] at hmem hsorted
  have hdrop := (List.mem_append.mp hmem).resolve_left hout
  refine ⟨?_, fun c hc => (List.pairwise_append.mp hsorted).2.2 c hc d hdrop⟩
  have hlen := List.length_pos_of_mem hdrop
  rw [List.length_drop] at hlen
  rw [List.length_take]
  omega

theorem rounds_noCandidates : ∀ (n : ℕ) {st after : Lookup F},
    rounds net allowlist now alpha target_id n st = (after, .noCandidates) →
      candidates C alpha target_id after = []
  | 0, _, _, h => by
      rw [rounds] at h
      exact nomatch (Prod.mk.inj h).2
  | n + 1, st, after, h => by
      rw [rounds] at h
      split at h
      · next hnil => exact (Prod.mk.inj h).1 ▸ hnil
      · dsimp only at h
        split at h
        · exact rounds_noCandidates n h
        · exact nomatch (Prod.mk.inj h).2

/-- A lookup that gets no further has gone some rounds before its last. -/
theorem rounds_noProgress : ∀ (n : ℕ) {st after : Lookup F},
    rounds net allowlist now alpha target_id n st = (after, .noProgress) →
      ∃ before, ∃ m < n, rounds net allowlist now alpha target_id m st = (before, .maxRounds) ∧
        candidates C alpha target_id before ≠ [] ∧
        round net allowlist now alpha target_id before = (after, false)
  | 0, _, _, h => by
      rw [rounds] at h
      exact nomatch (Prod.mk.inj h).2
  | n + 1, st, after, h => by
      rw [rounds] at h
      split at h
      · exact nomatch (Prod.mk.inj h).2
      · next hsome =>
          dsimp only at h
          split at h
          · next hflag =>
              obtain ⟨before, m, hm, hrounds, hcandidates, hround⟩ := rounds_noProgress n h
              refine ⟨before, m + 1, Nat.succ_lt_succ hm, ?_, hcandidates, hround⟩
              rw [rounds, if_neg hsome]
              dsimp only
              rw [if_pos hflag]
              exact hrounds
          · next hflag =>
              refine ⟨st, 0, Nat.succ_pos n, rfl, hsome, ?_⟩
              exact Prod.ext (Prod.mk.inj h).1 (Bool.not_eq_true _ ▸ hflag)

theorem lastRound_of_round {before after : Lookup F}
    (hsome : candidates C alpha target_id before ≠ [])
    (h : round net allowlist now alpha target_id before = (after, false)) :
    LastRound net allowlist now alpha target_id before after := by
  have hgrows : Hears (fun rec => ∃ d ∈ candidates C alpha target_id before,
      Told net allowlist now target_id d rec) (before, false)
      (round net allowlist now alpha target_id before) := round_grows before
  have hqueried : (round net allowlist now alpha target_id before).1.queried =
      before.queried ∪ (candidates C alpha target_id before).toFinset := round_queried before
  rw [h] at hgrows hqueried
  have hsame := (hgrows.still rfl).1
  refine ⟨hsome, hqueried, fun d hd hnot => ?_, hsame, fun d hd rec hrec => ?_⟩
  · rw [hqueried, Finset.mem_union, not_or, List.mem_toFinset] at hnot
    rw [hsame] at hd
    exact candidates_nearer hd hnot.1 hnot.2
  · have hadded := (hgrows.added rec ⟨d, hd, hrec⟩).2
    rwa [hsame] at hadded

theorem heard_start (seed : List String) :
    Heard net allowlist now target_id { shortlist := unique seed } where
  sound did signed h := by
    rw [StrMap.get_empty] at h
    exact nomatch h
  complete d h := absurd h (Finset.notMem_empty d)

theorem Told.verified {to_did : String} {rec : PeerRecord F}
    (h : Told net allowlist now target_id to_did rec) :
    verify_record B C allowlist now skew rec.signed = some rec := by
  obtain ⟨r, -, hr⟩ := h
  rw [signed_of_verified hr]
  exact hr

/-- The record found is one that a node told when asked, and there is none only if none did. -/
theorem find_peer_spec (net : Network B C skew) (allowlist : String → Bool) (now : Option F)
    (alpha : ℕ) (target_did : String) (seed : List String) :
    let st := (lookup net allowlist now alpha (node_id C target_did) seed ID_BITS).1
    (find_peer net allowlist now alpha target_did seed = none ↔
      ∀ d ∈ st.queried, ∀ rec, Told net allowlist now (node_id C target_did) d rec →
        rec.did ≠ target_did) ∧
    ∀ rec, find_peer net allowlist now alpha target_did seed = some rec →
      rec.did = target_did ∧
        ∃ d ∈ st.queried, Told net allowlist now (node_id C target_did) d rec := by
  intro st
  have hheard : Heard net allowlist now (node_id C target_did) st := rounds_heard _ (heard_start seed)
  rw [find_peer]
  cases hget : st.records[target_did]? with
  | none =>
      refine ⟨iff_of_true rfl fun d hd rec hrec hdid => ?_, fun rec hrec => nomatch hrec⟩
      have hmem := (hheard.complete d hd rec hrec).1
      rw [hdid] at hmem
      exact StrMap.not_mem_iff_get.mpr hget hmem
  | some signed =>
      obtain ⟨d, hd, rec, hrec, hdid, hsigned⟩ := hheard.sound target_did signed hget
      have hverify : verify_record B C allowlist now skew signed = some rec :=
        hsigned ▸ hrec.verified
      dsimp only
      rw [hverify]
      refine ⟨iff_of_false (fun h => nomatch h) fun h => h d hd rec hrec hdid, fun rec' h => ?_⟩
      obtain rfl := Option.some.inj h
      exact ⟨hdid, d, hd, hrec⟩

/-- A lookup that stops by itself has asked everybody it has heard of, or got no further by asking
the nearest of those it had not asked; and the record found is one it was told. -/
theorem lookup_spec (net : Network B C skew) (allowlist : String → Bool) (now : Option F)
    (alpha : ℕ) (seed : List String) :
    (∀ (target_id max_rounds : ℕ) (after : Lookup F),
      lookup net allowlist now alpha target_id seed max_rounds = (after, .noCandidates) →
        alpha = 0 ∨ ∀ did ∈ after.shortlist, did ∈ after.queried) ∧
    (∀ (target_id max_rounds : ℕ) (after : Lookup F),
      lookup net allowlist now alpha target_id seed max_rounds = (after, .noProgress) →
        ∃ before, ∃ m < max_rounds,
          lookup net allowlist now alpha target_id seed m = (before, .maxRounds) ∧
            LastRound net allowlist now alpha target_id before after) ∧
    ∀ target_did,
      let st := (lookup net allowlist now alpha (node_id C target_did) seed ID_BITS).1
      (find_peer net allowlist now alpha target_did seed = none ↔
        ∀ d ∈ st.queried, ∀ rec, Told net allowlist now (node_id C target_did) d rec →
          rec.did ≠ target_did) ∧
      ∀ rec, find_peer net allowlist now alpha target_did seed = some rec →
        rec.did = target_did ∧
          ∃ d ∈ st.queried, Told net allowlist now (node_id C target_did) d rec := by
  refine ⟨fun target_id max_rounds after h => all_queried (rounds_noCandidates max_rounds h),
    fun target_id max_rounds after h => ?_,
    fun target_did => find_peer_spec net allowlist now alpha target_did seed⟩
  obtain ⟨before, m, hm, hrounds, hsome, hround⟩ := rounds_noProgress max_rounds h
  exact ⟨before, m, hm, hrounds, lastRound_of_round hsome hround⟩

end

/-! ## A lookup that leaves a seed unasked -/

/-- Nodes whose tables are empty. -/
def strangers : Network Undated.builtins .lenient (some 300) :=
  .ofTables (fun did => some (.new did 20)) 20

theorem strangers_query (to_did : String) (target_id : ℕ) : strangers.query to_did target_id = [] :=
  rfl

/-- Four seeds that know nobody: three are asked, and the lookup stops. -/
theorem unasked : ¬ ∀ (net : Network Undated.builtins .lenient (some 300)) (allowlist : String → Bool)
    (now : Option (Option Int)) (alpha target_id count : ℕ) (seed : List String)
    (after : Lookup (Option Int)) (ending : Ending),
    lookup net allowlist now alpha target_id seed ID_BITS = (after, ending) → ending ≠ .maxRounds →
      ∀ did ∈ (ordered .lenient target_id after).take count, did ∈ after.queried := by
  intro h
  have hrun : lookup strangers (fun _ => true) none 3 0 ["a", "b", "c", "d"] ID_BITS =
      (⟨["a", "b", "c", "d"], ∅, {"c", "b", "a"}⟩, .noProgress) := rfl
  have hasked := h strangers (fun _ => true) none 3 0 20 ["a", "b", "c", "d"] _ _ hrun (by decide) "d"
    (by decide)
  exact absurd hasked (by decide)

end Secdogie.Transport
