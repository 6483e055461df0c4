/-
# `Secdogie.Transport.Buckets` — the buckets of a routing table

A table keeps the DIDs that it has records of in buckets, by the length of what
their hashes share with its own, and each bucket in the order in which they were
last seen.  Taking a record in moves its DID to the end of its bucket, in the
place of the first of a full one; `Placed` is what that keeps, and with it
`closest` reads the nearest DIDs off the records alone.  The tables of
`Secdogie.Transport.Dht`, which hold records that somebody verified, are such
tables (`table_add`).
-/
import Secdogie.Transport.Dht

namespace Secdogie.Transport

open Secdogie.Graph Secdogie.Identity

section

variable {F : Type} [PyFloat F] (C : Crypto)

/-- A routing table of any records. -/
structure Table (F : Type) where
  self_did : String
  k : ℕ
  buckets : ℤ → List String := fun _ => []
  records : OrderedDict String (PeerRecord F) := .empty

namespace Table

variable (t : Table F)

/-- The bucket of a DID. -/
def place (did : String) : ℤ := bucket_index (node_id C t.self_did) (node_id C did)

/-- The table takes the record in: a DID that its bucket has goes to the end, a full bucket gives
up its first (a table without room for any does not occur). -/
def add (rec : PeerRecord F) : Table F × Bool :=
  let cur := t.records.get rec.did
  if rec.did = t.self_did then (t, false)
  else if cur.any (fun cur => PyFloat.lt rec.last_seen cur.last_seen) then (t, false)
  else
    let bidx := t.place C rec.did
    let bucket := t.buckets bidx
    let changed := cur.isNone || cur.any (fun cur => PyFloat.lt cur.last_seen rec.last_seen)
    if rec.did ∈ bucket then
      ({ t with
          buckets := Function.update t.buckets bidx (bucket.erase rec.did ++ [rec.did])
          records := t.records.set rec.did rec }, changed)
    else if t.k ≤ bucket.length then
      match bucket with
      | [] => (t, false)
      | evicted :: bucket =>
          ({ t with
              buckets := Function.update t.buckets bidx (bucket ++ [rec.did])
              records := (t.records.pop evicted).set rec.did rec }, changed)
    else
      ({ t with
          buckets := Function.update t.buckets bidx (bucket ++ [rec.did])
          records := t.records.set rec.did rec }, changed)

omit [PyFloat F] in
def remove (did : String) : Table F :=
  if t.records.get did = none then t
  else
    { t with
      buckets := Function.update t.buckets (t.place C did) ((t.buckets (t.place C did)).erase did)
      records := t.records.pop did }

/-- The known DIDs nearest to the target. -/
def closest (target_id count : ℕ) : List String := (nearest C target_id t.records.keys).take count

/-- What is done to a table. -/
inductive Op (F : Type) where
  | add (rec : PeerRecord F)
  | remove (did : String)

def apply (t : Table F) : Op F → Table F
  | .add rec => (t.add C rec).1
  | .remove did => t.remove C did

/-- A new table, after what was done to it. -/
def run (self_did : String) (k : ℕ) (ops : List (Op F)) : Table F :=
  ops.foldl (apply C) { self_did, k }

end Table

/-- The table of a node, without what is known of its records. -/
def RoutingTable.table {C : Crypto} {B : Builtins F} {skew : F} (t : RoutingTable B C skew) : Table F :=
  { self_did := t.self_did, k := t.k, buckets := t.buckets, records := t.records }

theorem RoutingTable.table_add {B : Builtins F} {skew : F} (t : RoutingTable B C skew)
    (rec : PeerRecord F) (hrec : Genuine B C skew rec) :
    t.table.add C rec = ((t.add rec hrec).1.table, (t.add rec hrec).2) := by
  by_cases hself : rec.did = t.self_did
  · simp only [Table.add, RoutingTable.add, RoutingTable.table, hself, ↓reduceIte]
  by_cases hold : ((t.records.get rec.did).any fun cur => PyFloat.lt rec.last_seen cur.last_seen) = true
  · simp only [Table.add, RoutingTable.add, RoutingTable.table, hself, hold, ↓reduceIte]
  by_cases hin : rec.did ∈ t.buckets (bucket_index (node_id C t.self_did) (node_id C rec.did))
  · simp only [Table.add, RoutingTable.add, RoutingTable.table, Table.place, hself, hold, hin,
      ↓reduceIte]
    rfl
  by_cases hfull : t.k ≤ (t.buckets (bucket_index (node_id C t.self_did) (node_id C rec.did))).length
  · simp only [Table.add, RoutingTable.add, RoutingTable.table, Table.place, hself, hold, hin, hfull,
      ↓reduceIte]
    cases t.buckets (bucket_index (node_id C t.self_did) (node_id C rec.did)) <;> rfl
  · simp only [Table.add, RoutingTable.add, RoutingTable.table, Table.place, hself, hold, hin, hfull,
      ↓reduceIte]
    rfl

end

namespace Table

variable {F : Type} {C : Crypto} {t : Table F}

/-! ## Where the DIDs are -/

/-- Each known DID is in its own bucket and nowhere else. -/
structure Placed (C : Crypto) (t : Table F) : Prop where
  not_self : t.self_did ∉ t.records.keys
  place : ∀ i did, did ∈ t.buckets i ↔ did ∈ t.records.keys ∧ t.place C did = i
  once : ∀ i, (t.buckets i).Nodup
  room : ∀ i, (t.buckets i).length ≤ t.k
  keyed : ∀ did rec, t.records.get did = some rec → rec.did = did

theorem placed_new (self_did : String) (k : ℕ) : Placed C ({ self_did, k } : Table F) where
  not_self := List.not_mem_nil
  place _ _ := iff_of_false List.not_mem_nil fun h => List.not_mem_nil h.1
  once _ := List.nodup_nil
  room _ := Nat.zero_le k
  keyed _ _ h := by cases OrderedDict.get_empty.symm.trans h

theorem keys_pop {d : OrderedDict String (PeerRecord F)} {k did : String} :
    did ∈ (d.pop k).keys ↔ did ≠ k ∧ did ∈ d.keys := by
  rw [OrderedDict.mem_keys, OrderedDict.mem_keys]
  simp only [OrderedDict.get_pop]
  by_cases h : did = k <;> simp [h]

theorem mem_keys_set {d : OrderedDict String (PeerRecord F)} {k did : String} {rec : PeerRecord F} :
    did ∈ (d.set k rec).keys ↔ did = k ∨ did ∈ d.keys := by
  rw [OrderedDict.mem_keys, OrderedDict.mem_keys]
  simp only [OrderedDict.get_set]
  by_cases h : did = k <;> simp [h]

/-- A table with the DID of a record at the end of its bucket is placed, if what is before it there
is what was there without some that are no longer known. -/
theorem Placed.moved (h : Placed C t) {rec : PeerRecord F} {bucket : List String}
    {records : OrderedDict String (PeerRecord F)} (hself : rec.did ≠ t.self_did)
    (hsub : bucket.Sublist (t.buckets (t.place C rec.did))) (hnew : rec.did ∉ bucket)
    (hroom : bucket.length < t.k)
    (hrecords : ∀ did r, records.get did = some r → t.records.get did = some r)
    (hknown : ∀ did, did ≠ rec.did → (did ∈ records.keys ↔
      did ∈ t.records.keys ∧ (t.place C did = t.place C rec.did → did ∈ bucket))) :
    Placed C { t with
      buckets := Function.update t.buckets (t.place C rec.did) (bucket ++ [rec.did])
      records := records.set rec.did rec } where
  not_self := by
    rw [mem_keys_set, not_or]
    refine ⟨hself.symm, fun hin => h.not_self ?_⟩
    exact ((hknown _ hself.symm).mp hin).1
  place i did := by
    have hplace : ({ t with
      buckets := Function.update t.buckets (t.place C rec.did) (bucket ++ [rec.did])
      records := records.set rec.did rec } : Table F).place C did = t.place C did := rfl
    rw [hplace, mem_keys_set]
    dsimp only
    by_cases hdid : did = rec.did
    · subst hdid
      by_cases hi : i = t.place C rec.did
      · subst hi
        simp
      · rw [Function.update_of_ne hi, h.place]
        exact iff_of_false (fun hin => hi hin.2.symm) fun hin => hi hin.2.symm
    · rw [hknown did hdid]
      by_cases hi : i = t.place C rec.did
      · subst hi
        rw [Function.update_self, List.mem_append, List.mem_singleton]
        constructor
        · rintro (hin | hin)
          · obtain ⟨hkey, hat⟩ := (h.place _ _).mp (hsub.subset hin)
            exact ⟨.inr ⟨hkey, fun _ => hin⟩, hat⟩
          · exact absurd hin hdid
        · rintro ⟨hin | ⟨-, hin⟩, hat⟩
          · exact absurd hin hdid
          · exact .inl (hin hat)
      · rw [Function.update_of_ne hi, h.place]
        constructor
        · rintro ⟨hkey, hat⟩
          exact ⟨.inr ⟨hkey, fun heq => absurd (hat.symm.trans heq) hi⟩, hat⟩
        · rintro ⟨hin | ⟨hkey, -⟩, hat⟩
          · exact absurd hin hdid
          · exact ⟨hkey, hat⟩
  once i := by
    dsimp only
    by_cases hi : i = t.place C rec.did
    · subst hi
      rw [Function.update_self]
      refine List.nodup_append.mpr ⟨(h.once _).sublist hsub, List.nodup_singleton _, ?_⟩
      rintro a ha b hb rfl
      exact hnew (List.mem_singleton.mp hb ▸ ha)
    · rw [Function.update_of_ne hi]
      exact h.once i
  room i := by
    dsimp only
    by_cases hi : i = t.place C rec.did
    · subst hi
      rw [Function.update_self, List.length_append, List.length_singleton]
      exact hroom
    · rw [Function.update_of_ne hi]
      exact h.room i
  keyed did r hr := by
    rw [OrderedDict.get_set] at hr
    split_ifs at hr with hdid
    · rw [← Option.some.inj hr, hdid]
    · exact h.keyed did r (hrecords did r hr)

variable [PyFloat F]

theorem Placed.add (h : Placed C t) (hk : 0 < t.k) (rec : PeerRecord F) :
    Placed C (t.add C rec).1 := by
  have hhere : ∀ did ∈ t.buckets (t.place C rec.did), did ∈ t.records.keys ∧
      t.place C did = t.place C rec.did := fun did hin => (h.place _ did).mp hin
  rw [Table.add]
  dsimp only
  split_ifs with hself hold hin hfull
  · exact h
  · exact h
  · -- the DID moves to the end
    refine h.moved hself List.erase_sublist ?_ ?_ (fun _ _ hr => hr) fun did hdid => ?_
    · exact fun hmem => ((h.once _).mem_erase_iff.mp hmem).1 rfl
    · rw [List.length_erase_of_mem hin]
      have hpos := List.length_pos_of_mem hin
      have hroom := h.room (t.place C rec.did)
      omega
    · refine ⟨fun hkey => ⟨hkey, fun hat => ?_⟩, fun hkey => hkey.1⟩
      exact (List.mem_erase_of_ne hdid).mpr ((h.place _ did).mpr ⟨hkey, hat⟩)
  · -- the first of the bucket goes
    rcases hbucket : t.buckets (t.place C rec.did) with - | ⟨evicted, bucket⟩
    · rw [hbucket] at hfull
      exact absurd hk (not_lt.mpr hfull)
    · dsimp only
      have hsub : bucket.Sublist (t.buckets (t.place C rec.did)) :=
        hbucket ▸ List.sublist_cons_self _ _
      have honce := h.once (t.place C rec.did)
      rw [hbucket, List.nodup_cons] at honce
      refine h.moved hself hsub (fun hmem => hin (hsub.subset hmem)) ?_ ?_ fun did hdid => ?_
      · have hroom := h.room (t.place C rec.did)
        rw [hbucket, List.length_cons] at hroom
        omega
      · intro did r hr
        rw [OrderedDict.get_pop] at hr
        split_ifs at hr
        exact hr
      · have hplace := h.place (t.place C rec.did) did
        rw [hbucket, List.mem_cons] at hplace
        rw [keys_pop]
        constructor
        · rintro ⟨hne, hkey⟩
          exact ⟨hkey, fun hat => (hplace.mpr ⟨hkey, hat⟩).resolve_left hne⟩
        · rintro ⟨hkey, hat⟩
          refine ⟨?_, hkey⟩
          rintro rfl
          exact honce.1 (hat ((h.place _ did).mp (hbucket ▸ List.mem_cons_self)).2)
  · -- there is room
    refine h.moved hself (List.Sublist.refl _) hin (not_le.mp hfull) (fun _ _ hr => hr) fun did hdid => ?_
    exact ⟨fun hkey => ⟨hkey, fun hat => (h.place _ did).mpr ⟨hkey, hat⟩⟩, fun hkey => hkey.1⟩

omit [PyFloat F] in
theorem Placed.remove (h : Placed C t) (did : String) : Placed C (t.remove C did) := by
  rw [Table.remove]
  split_ifs with hknown
  · exact h
  refine ⟨fun hin => h.not_self (keys_pop.mp hin).2, fun i d => ?_, fun i => ?_, fun i => ?_,
    fun d r hr => ?_⟩
  · have hplace : ({ t with
      buckets := Function.update t.buckets (t.place C did) ((t.buckets (t.place C did)).erase did)
      records := t.records.pop did } : Table F).place C d = t.place C d := rfl
    rw [hplace, keys_pop]
    dsimp only
    by_cases hi : i = t.place C did
    · subst hi
      rw [Function.update_self, (h.once _).mem_erase_iff, h.place, and_assoc]
    · rw [Function.update_of_ne hi, h.place]
      constructor
      · rintro ⟨hkey, hat⟩
        refine ⟨⟨?_, hkey⟩, hat⟩
        rintro rfl
        exact hi hat.symm
      · rintro ⟨⟨-, hkey⟩, hat⟩
        exact ⟨hkey, hat⟩
  · dsimp only
    by_cases hi : i = t.place C did
    · subst hi
      rw [Function.update_self]
      exact (h.once _).erase _
    · rw [Function.update_of_ne hi]
      exact h.once i
  · dsimp only
    by_cases hi : i = t.place C did
    · subst hi
      rw [Function.update_self]
      exact List.length_erase_le.trans (h.room _)
    · rw [Function.update_of_ne hi]
      exact h.room i
  · rw [OrderedDict.get_pop] at hr
    split_ifs at hr
    exact h.keyed d r hr

theorem add_fields (rec : PeerRecord F) :
    (t.add C rec).1.k = t.k ∧ (t.add C rec).1.self_did = t.self_did := by
  rw [Table.add]
  dsimp only
  split_ifs
  · exact ⟨rfl, rfl⟩
  · exact ⟨rfl, rfl⟩
  · exact ⟨rfl, rfl⟩
  · cases t.buckets (t.place C rec.did) <;> exact ⟨rfl, rfl⟩
  · exact ⟨rfl, rfl⟩

theorem apply_fields (op : Op F) :
    (t.apply C op).k = t.k ∧ (t.apply C op).self_did = t.self_did := by
  cases op with
  | add rec => exact add_fields rec
  | remove did =>
      rw [apply, remove]
      split_ifs <;> exact ⟨rfl, rfl⟩

theorem Placed.foldl (ops : List (Op F)) (h : Placed C t) (hk : 0 < t.k) :
    Placed C (ops.foldl (apply C) t) ∧ (ops.foldl (apply C) t).k = t.k ∧
      (ops.foldl (apply C) t).self_did = t.self_did := by
  induction ops generalizing t with
  | nil => exact ⟨h, rfl, rfl⟩
  | cons op ops ih =>
      obtain ⟨hk', hself⟩ := apply_fields (C := C) (t := t) op
      have happly : Placed C (t.apply C op) := by
        cases op with
        | add rec => exact h.add hk rec
        | remove did => exact h.remove did
      obtain ⟨hplaced, hk'', hself'⟩ := ih happly (hk'.symm ▸ hk)
      exact ⟨hplaced, hk''.trans hk', hself'.trans hself⟩

/-! ## The nearest -/

/-- The DIDs are the nearest of the known ones, as many as are asked for, in their order. -/
structure Nearest (C : Crypto) (t : Table F) (target_id count : ℕ) (dids : List String) : Prop where
  length : dids.length = min count t.records.keys.length
  nodup : dids.Nodup
  known : ∀ did ∈ dids, did ∈ t.records.keys
  sorted : dids.Pairwise fun a b =>
    xor_distance (node_id C a) target_id ≤ xor_distance (node_id C b) target_id
  least : ∀ a ∈ dids, ∀ b ∈ t.records.keys, b ∉ dids →
    xor_distance (node_id C a) target_id ≤ xor_distance (node_id C b) target_id

omit [PyFloat F] in
theorem closest_nearest (t : Table F) (target_id count : ℕ) :
    Nearest C t target_id count (t.closest C target_id count) := by
  have hperm : (nearest C target_id t.records.keys).Perm t.records.keys :=
    List.perm_insertionSort _ _
  have hsorted := nearest_sorted C target_id t.records.keys
  refine ⟨?_, ?_, fun did hdid => ?_, hsorted.sublist (List.take_sublist _ _), fun a ha b hb hnot => ?_⟩
  · rw [closest, List.length_take, hperm.length_eq]
  · exact (hperm.nodup_iff.mpr t.records.nodup_keys).sublist (List.take_sublist _ _)
  · exact hperm.mem_iff.mp (List.mem_of_mem_take hdid)
  · have hb' := hperm.mem_iff.mpr hb
    rw [← List.take_append_drop count (nearest C target_id t.records.keys)] at hsorted hb'
    have hdrop := (List.mem_append.mp hb').resolve_left hnot
    exact (List.pairwise_append.mp hsorted).2.2 a ha b hdrop

/-- Whatever was taken in and removed, each known DID is in its own bucket and in no other, none
has more than `k`, none has the table's own, and the records alone give the nearest. -/
theorem run_placed (C : Crypto) (self_did : String) (k : ℕ) (hk : 0 < k) (ops : List (Op F)) :
    let t := run C self_did k ops
    Placed C t ∧ t.self_did = self_did ∧ t.k = k ∧ t.records.keys.Nodup ∧
      ∀ target_id count, Nearest C t target_id count (t.closest C target_id count) := by
  obtain ⟨hplaced, hk', hself⟩ := (placed_new (C := C) (F := F) self_did k).foldl ops hk
  exact ⟨hplaced, hself, hk', (run C self_did k ops).records.nodup_keys, closest_nearest _⟩

/-- A record of a DID, with nothing else in it. -/
def bareRecord (did : String) (last_seen : Option Int) : PeerRecord (Option Int) :=
  { did, last_seen, endpoints := [], signed := .null, roles := [], relays := [] }

/-- Two records for one place. -/
theorem run_placed_evicted :
    let t := run Crypto.lenient "did:key:a" 1
      [.add (bareRecord "did:key:b" (some 1)), .add (bareRecord "did:key:c" (some 2))]
    Placed Crypto.lenient t ∧ t.self_did = "did:key:a" ∧ t.k = 1 ∧ t.records.keys.Nodup ∧
      ∀ target_id count,
        Nearest Crypto.lenient t target_id count (t.closest Crypto.lenient target_id count) :=
  run_placed Crypto.lenient "did:key:a" 1 (by decide) _

end Table

end Secdogie.Transport
