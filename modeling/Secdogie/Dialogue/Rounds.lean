/-
# `Secdogie.Dialogue.Rounds` — a message comes out whole, once in each round

Fragments come in any order, and more than once.  A round ends with the
fragment that is the last of its message to come, and then the message comes
out as it was sent.  What comes after that starts the next round: a fragment
that is delivered twice can hence complete its message twice
(`completed_twice`), which the window of the envelopes is there for.
-/
import Secdogie.Dialogue.Reassembly
import Secdogie.Lib.MapOption

namespace Secdogie.Dialogue

/-! ## Rounds -/

/-- How often all numbers below `total` come, each time since the last; `seen` have come before. -/
def rounds (total : ℕ) : List ℕ → List ℕ → ℕ
  | _, [] => 0
  | seen, i :: is =>
      if ∀ j < total, j ∈ i :: seen then rounds total [] is + 1 else rounds total (i :: seen) is

/-- There are no more rounds than any number comes. -/
theorem rounds_le_count {total j : ℕ} (hj : j < total) : ∀ is seen : List ℕ,
    rounds total seen is ≤ is.count j + if j ∈ seen then 1 else 0
  | [], _ => Nat.zero_le _
  | i :: is, seen => by
      rw [rounds, List.count_cons]
      by_cases hall : ∀ j < total, j ∈ i :: seen
      · have ih := rounds_le_count hj is []
        rw [if_neg List.not_mem_nil] at ih
        rw [if_pos hall]
        rcases List.mem_cons.mp (hall j hj) with rfl | hseen
        · rw [if_pos (beq_self_eq_true j)]
          omega
        · rw [if_pos hseen]
          omega
      · have ih := rounds_le_count hj is (i :: seen)
        rw [if_neg hall]
        by_cases hi : i = j
        · rw [if_pos (hi ▸ List.mem_cons_self)] at ih
          rw [if_pos (beq_iff_eq.mpr hi)]
          omega
        · by_cases hseen : j ∈ seen
          · rw [if_pos (List.mem_cons_of_mem i hseen)] at ih
            rw [if_pos hseen]
            omega
          · have hnot : j ∉ i :: seen := fun hmem =>
              (List.mem_cons.mp hmem).elim (fun heq => hi heq.symm) hseen
            rw [if_neg hnot] at ih
            omega

/-- There is a round if every number comes. -/
theorem rounds_pos_iff {total : ℕ} : ∀ {is seen : List ℕ}, ¬ (∀ j < total, j ∈ seen) →
    (0 < rounds total seen is ↔ ∀ j < total, j ∈ seen ∨ j ∈ is)
  | [], seen, h => by
      refine iff_of_false (lt_irrefl 0) fun hall => h fun j hj => ?_
      exact (hall j hj).resolve_right List.not_mem_nil
  | i :: is, seen, h => by
      have hmove : ∀ j, (j ∈ i :: seen ∨ j ∈ is) ↔ (j ∈ seen ∨ j ∈ i :: is) := by
        intro j
        rw [List.mem_cons, List.mem_cons, or_assoc, or_left_comm]
      rw [rounds]
      by_cases hall : ∀ j < total, j ∈ i :: seen
      · rw [if_pos hall]
        exact iff_of_true (Nat.succ_pos _) fun j hj => (hmove j).mp (.inl (hall j hj))
      · rw [if_neg hall, rounds_pos_iff hall]
        simp only [hmove]

/-! ## A message and its fragments -/

/-- A message as it is sent. -/
structure Sent where
  msg_id : ℕ
  data : Bytes
  reliable : Bool
  size : ℕ

namespace Sent

variable (m : Sent)

def total : ℕ := (max 1 (-(-(m.data.length : ℤ) / m.size))).toNat

def chunk (i : ℕ) : Bytes := (m.data.drop (i * m.size)).take m.size

def fragment (i : ℕ) : Fragment :=
  { msg_id := m.msg_id, idx := i, total := m.total, reliable := m.reliable, chunk := m.chunk i }

variable {m}

theorem fragments_eq_some {frames : List Bytes}
    (h : fragments m.msg_id m.data m.reliable m.size = some frames) :
    0 < m.size ∧ m.total < 2 ^ 16 ∧ m.msg_id < 2 ^ 64 ∧
      frames = (List.range m.total).map fun i => (m.fragment i).frame := by
  rw [fragments] at h
  by_cases hsize : m.size = 0
  · rw [if_pos hsize] at h
    exact nomatch h
  rw [if_neg hsize] at h
  dsimp only at h
  by_cases hlarge : 0xFFFF < (max 1 (-(-(m.data.length : ℤ) / m.size))).toNat ∨ 2 ^ 64 ≤ m.msg_id
  · rw [if_pos hlarge] at h
    exact nomatch h
  rw [if_neg hlarge] at h
  obtain ⟨htotal, hid⟩ := not_or.mp hlarge
  refine ⟨Nat.pos_of_ne_zero hsize, ?_, not_le.mp hid, (Option.some.inj h).symm⟩
  rw [total]
  omega

theorem total_pos : 0 < m.total := by
  have hone : (1 : ℤ) ≤ max 1 (-(-(m.data.length : ℤ) / m.size)) := le_max_left _ _
  rw [total]
  omega

/-- The fragments hold the message, and not one of them too many. -/
theorem total_mul (hsize : 0 < m.size) :
    m.data.length ≤ m.total * m.size ∧ m.total * m.size ≤ m.data.length + m.size := by
  have hpos : (0 : ℤ) < m.size := Int.natCast_pos.mpr hsize
  have hle := Int.ediv_mul_le (-(m.data.length : ℤ)) hpos.ne'
  have hlt := Int.lt_ediv_add_one_mul_self (-(m.data.length : ℤ)) hpos
  have htotal : (m.total : ℤ) = max 1 (-(-(m.data.length : ℤ) / m.size)) :=
    Int.toNat_of_nonneg (le_trans Int.one_nonneg (le_max_left _ _))
  have hlen : (0 : ℤ) ≤ m.data.length := Int.natCast_nonneg _
  zify
  rw [htotal]
  rcases max_choice 1 (-(-(m.data.length : ℤ) / m.size)) with hmax | hmax
  · have hone : -(-(m.data.length : ℤ) / m.size) ≤ 1 := max_eq_left_iff.mp hmax
    rw [hmax]
    constructor
    · nlinarith
    · nlinarith
  · rw [hmax]
    constructor
    · nlinarith
    · nlinarith

theorem flatten_chunks (hsize : 0 < m.size) : ((List.range m.total).map m.chunk).flatten = m.data := by
  have htake : ∀ n, ((List.range n).map m.chunk).flatten = m.data.take (n * m.size) := by
    intro n
    induction n with
    | zero => rw [Nat.zero_mul, List.take_zero]; rfl
    | succ n ih =>
        rw [List.range_succ, List.map_append, List.flatten_append, ih, Nat.succ_mul, List.take_add]
        exact congrArg _ (List.append_nil _)
  rw [htake, List.take_of_length_le (total_mul hsize).1]

theorem sum_chunks (hsize : 0 < m.size) :
    ∑ i ∈ Finset.range m.total, (m.chunk i).length = m.data.length := by
  have hlength := congrArg List.length (flatten_chunks hsize)
  rw [List.length_flatten, List.map_map] at hlength
  rw [← hlength, ← List.toFinset_range, List.sum_toFinset _ List.nodup_range]
  rfl

theorem length_chunk_le (i : ℕ) : (m.chunk i).length ≤ m.size := List.length_take_le _ _

theorem fits {L : Limits} {i : ℕ} (hL : L.fragment_size = m.size) (hsize : 0 < m.size)
    (hmax : (m.data.length : ℤ) ≤ L.max_message) (hi : i < m.total) : L.Fits (m.fragment i) := by
  have hmul := (total_mul hsize).2
  refine ⟨total_pos.ne', hi, ?_, hL ▸ length_chunk_le i⟩
  rw [hL]
  have hcast : (m.total * m.size : ℤ) ≤ m.data.length + m.size := by exact_mod_cast hmul
  change (m.total * m.size : ℤ) ≤ _
  linarith

theorem unpack_fragment {i : ℕ} (hid : m.msg_id < 2 ^ 64) (htotal : m.total < 2 ^ 16)
    (hi : i < m.total) : Fragment.unpack (m.fragment i).frame = some (m.fragment i) :=
  Fragment.unpack_frame ⟨hid, hi.trans htotal, htotal⟩

end Sent

/-! ## What is held of a message -/

namespace Limits

variable {L : Limits} {m : Sent} {t : Table} {r : Partial} {seen : List ℕ} {i : ℕ}

/-- The partial message holds these fragments of the message. -/
structure Holds (m : Sent) (r : Partial) (seen : List ℕ) : Prop where
  total : r.total = m.total
  reliable : r.reliable = m.reliable
  parts : ∀ i, r.parts.get i = if i ∈ seen then some (m.chunk i) else none

/-- What of the message has come in this round. -/
structure Progress (m : Sent) (t : Table) (seen : List ℕ) : Prop where
  holds : ∀ r, t.get m.msg_id = some r → Holds m r seen
  nothing : t.get m.msg_id = none → seen = []

theorem Holds.mem_keys (h : Holds m r seen) : i ∈ r.parts.keys ↔ i ∈ seen := by
  rw [OrderedDict.mem_keys, h.parts]
  by_cases hi : i ∈ seen
  · rw [if_pos hi]
    exact iff_of_true ⟨_, rfl⟩ hi
  · rw [if_neg hi]
    exact iff_of_false (fun ⟨_, hv⟩ => nomatch hv) hi

theorem Holds.put (h : Holds m r seen) : Holds m (r.put (m.fragment i)) (i :: seen) := by
  refine ⟨h.total, h.reliable, fun j => ?_⟩
  rw [Partial.put, OrderedDict.get_set, h.parts]
  change (if j = i then some (m.chunk i) else _) = _
  by_cases hj : j = i
  · rw [if_pos hj, if_pos (hj ▸ List.mem_cons_self), hj]
  · have hmem : j ∈ i :: seen ↔ j ∈ seen := by
      rw [List.mem_cons, or_iff_right hj]
    simp only [hmem]
    rw [if_neg hj]

/-- Keys below a number are all there just when there are as many. -/
theorem length_le_keys_iff {d : OrderedDict ℕ Bytes} {n : ℕ} (h : ∀ i ∈ d.keys, i < n) :
    n ≤ d.items.length ↔ ∀ j < n, j ∈ d.keys := by
  have hcard : d.keys.toFinset.card = d.items.length := by
    rw [List.toFinset_card_of_nodup d.nodup_keys, OrderedDict.keys, List.length_map]
  have hsubset : d.keys.toFinset ⊆ Finset.range n := fun i hi =>
    Finset.mem_range.mpr (h i (List.mem_toFinset.mp hi))
  constructor
  · intro hle j hj
    have heq : d.keys.toFinset = Finset.range n := by
      refine Finset.eq_of_subset_of_card_le hsubset ?_
      rw [Finset.card_range, hcard]
      exact hle
    exact List.mem_toFinset.mp (heq ▸ Finset.mem_range.mpr hj)
  · intro hall
    have hle : (Finset.range n).card ≤ d.keys.toFinset.card :=
      Finset.card_le_card fun j hj => List.mem_toFinset.mpr (hall j (Finset.mem_range.mp hj))
    rw [Finset.card_range, hcard] at hle
    exact hle

/-- What is held is no longer than what the numbers that have come stand for. -/
theorem Holds.length_put_le (h : Holds m r seen) (hsize : 0 < m.size)
    (hsum : r.size = (r.parts.values.map List.length).sum) (hkeys : ∀ j ∈ r.parts.keys, j < m.total)
    (hi : i < m.total) (hnew : i ∉ r.parts.keys) :
    r.size + (m.chunk i).length ≤ m.data.length := by
  have hvalues : r.parts.values.map List.length = r.parts.keys.map fun j => (m.chunk j).length := by
    rw [OrderedDict.values, OrderedDict.keys, List.map_map, List.map_map]
    refine List.map_congr_left fun e he => ?_
    have hget : r.parts.get e.1 = some e.2 := OrderedDict.get_eq_some_iff.mpr he
    have hmem : e.1 ∈ seen := h.mem_keys.mp (OrderedDict.mem_keys.mpr ⟨_, hget⟩)
    rw [h.parts, if_pos hmem] at hget
    exact congrArg List.length (Option.some.inj hget).symm
  have hfin : i ∉ r.parts.keys.toFinset := fun hmem => hnew (List.mem_toFinset.mp hmem)
  have hsubset : insert i r.parts.keys.toFinset ⊆ Finset.range m.total := by
    intro j hj
    rcases Finset.mem_insert.mp hj with rfl | hold
    · exact Finset.mem_range.mpr hi
    · exact Finset.mem_range.mpr (hkeys j (List.mem_toFinset.mp hold))
  calc r.size + (m.chunk i).length
      = (m.chunk i).length + ∑ j ∈ r.parts.keys.toFinset, (m.chunk j).length := by
        rw [hsum, hvalues, List.sum_toFinset _ r.parts.nodup_keys, Nat.add_comm]
    _ = ∑ j ∈ insert i r.parts.keys.toFinset, (m.chunk j).length :=
        (Finset.sum_insert (f := fun j => (m.chunk j).length) hfin).symm
    _ ≤ ∑ j ∈ Finset.range m.total, (m.chunk j).length := Finset.sum_le_sum_of_subset hsubset
    _ = m.data.length := Sent.sum_chunks hsize

theorem Holds.joined (h : Holds m r seen) (hsize : 0 < m.size) (hall : ∀ j < m.total, j ∈ seen) :
    r.joined = some m.data := by
  have hparts : (List.range r.total).mapM r.parts.get = some ((List.range m.total).map m.chunk) := by
    rw [mapM_eq_some_iff, h.total, List.map_map]
    refine List.map_congr_left fun j hj => ?_
    rw [h.parts, if_pos (hall j (List.mem_range.mp hj))]
    rfl
  rw [Partial.joined, hparts, Option.map_some, Sent.flatten_chunks hsize]

/-! ## One event -/

/-- The session and the message go together. -/
structure Suits (L : Limits) (m : Sent) : Prop where
  size : 0 < m.size
  same : L.fragment_size = m.size
  msg_id : m.msg_id < 2 ^ 64
  total : m.total < 2 ^ 16
  short : (m.data.length : ℤ) ≤ L.max_message

/-- What the next fragment of the message makes of what is held. -/
structure Next (m : Sent) (seen : List ℕ) (i : ℕ) (res : Table × Except PyError (Option Message)) :
    Prop where
  whole : (∀ j < m.total, j ∈ i :: seen) →
    res.2 = .ok (some (m.data, m.reliable)) ∧ Progress m res.1 []
  more : ¬ (∀ j < m.total, j ∈ i :: seen) → res.2 = .ok none ∧ Progress m res.1 (i :: seen)

theorem Added.next {res : Table × Except PyError (Option Message)} (hm : Suits L m)
    (h : Added L t r (m.fragment i) res) (hr : t.get m.msg_id = some r) (hholds : Holds m r seen)
    (hi : i < m.total) (hsum : r.size = (r.parts.values.map List.length).sum)
    (hkeys : ∀ j ∈ r.parts.keys, j < r.total) (hmissing : r.parts.items.length < r.total) :
    Next m seen i res := by
  have hput : Holds m (r.put (m.fragment i)) (i :: seen) := hholds.put
  have hall : r.total ≤ (r.put (m.fragment i)).parts.items.length ↔ ∀ j < m.total, j ∈ i :: seen := by
    have hputkeys := keys_put (f := m.fragment i) hkeys (hholds.total ▸ hi)
    rw [length_le_keys_iff hputkeys, hholds.total]
    simp only [hput.mem_keys]
  have hempty : Progress m (t.pop m.msg_id) [] := by
    refine ⟨fun r' hr' => ?_, fun _ => rfl⟩
    rw [OrderedDict.get_pop, if_pos rfl] at hr'
    cases hr'
  have hfull : ¬ Ignored r (m.fragment i) →
      (r.size + (m.fragment i).chunk.length : ℤ) ≤ L.max_message := by
    intro hnot
    have hlength := hholds.length_put_le hm.size hsum (hholds.total ▸ hkeys) hi (not_ignored hnot).2.2
    have hcast : (r.size + (m.chunk i).length : ℤ) ≤ m.data.length := by exact_mod_cast hlength
    exact hcast.trans hm.short
  cases h with
  | ignored hignored =>
      have hseen : i ∈ seen := by
        rcases hignored with htotal | hreliable | hidx
        · exact absurd hholds.total htotal
        · exact absurd hholds.reliable hreliable
        · exact hholds.mem_keys.mp hidx
      have hmem : ∀ j, j ∈ i :: seen ↔ j ∈ seen := by
        intro j
        rw [List.mem_cons, or_iff_right_of_imp fun heq => heq ▸ hseen]
      refine ⟨fun hcovers => ?_, fun _ => ⟨rfl, fun r' hr' => ?_, fun hnone => ?_⟩⟩
      · have hle := (length_le_keys_iff hkeys).mpr fun j hj =>
          hholds.mem_keys.mpr ((hmem j).mp (hcovers j (hholds.total ▸ hj)))
        exact absurd hmissing (not_lt.mpr hle)
      · obtain rfl := Option.some.inj (hr.symm.trans hr')
        refine ⟨hholds.total, hholds.reliable, fun j => ?_⟩
        simp only [hmem]
        exact hholds.parts j
      · cases hr.symm.trans hnone
  | dropped hnot hlarge => exact absurd hlarge (not_lt.mpr (hfull hnot))
  | grew hnot hbounded hlength =>
      refine ⟨fun hcovers => absurd (hall.mpr hcovers) (not_le.mpr hlength), fun _ => ⟨rfl, ?_⟩⟩
      have hset : (t.set m.msg_id (r.put (m.fragment i))).get m.msg_id = some (r.put (m.fragment i)) :=
        OrderedDict.get_set.trans (if_pos rfl)
      refine ⟨fun r' hr' => ?_, fun hnone => by cases hset.symm.trans hnone⟩
      exact Option.some.inj (hset.symm.trans hr') ▸ hput
  | whole data hnot hlength hjoined =>
      refine ⟨fun hcovers => ⟨?_, hempty⟩, fun hnot' => absurd (hall.mp hlength) hnot'⟩
      have hdata := hput.joined hm.size hcovers
      rw [hjoined] at hdata
      rw [Option.some.inj hdata, hholds.reliable]
  | broken hnot hlength hjoined =>
      have hdata := hput.joined hm.size (hall.mp hlength)
      rw [hjoined] at hdata
      cases hdata

/-- The table takes the next fragment of the message, if it has room for what opens. -/
theorem Progress.reassemble (h : Progress m t seen) (ht : L.Sound t) (hm : Suits L m) {now : ℚ}
    (hi : i < m.total)
    (hroom : t.get m.msg_id = none → (t.items.length : ℤ) < L.max_reassemblies) :
    Next m seen i (L.reassemble t now (m.fragment i)) := by
  have hfits : L.Fits (m.fragment i) := Sent.fits hm.same hm.size hm.short hi
  have hres := @reassembled L t (m.fragment i) now
  generalize L.reassemble t now (m.fragment i) = res at hres ⊢
  cases hres with
  | refused hnot => exact absurd hfits hnot
  | known r _ hr hadded =>
      have hheld := ht.held m.msg_id r hr
      exact hadded.next hm hr (h.holds r hr) hi hheld.size hheld.keys hheld.missing
  | opens _ hget _ hadded =>
      obtain rfl := h.nothing hget
      refine hadded.next hm ?_ ⟨rfl, rfl, fun j => ?_⟩ hi rfl (fun j hj => nomatch hj) Sent.total_pos
      · exact OrderedDict.get_set.trans (if_pos rfl)
      · rw [if_neg List.not_mem_nil]
        rfl
  | evicts k _ hget hfull => exact absurd (hroom hget) (not_lt.mpr hfull)
  | raises _ hget hfull => exact absurd (hroom hget) (not_lt.mpr hfull)

/-! ## Runs -/

/-- The fragment that comes in, if one does. -/
def Event.fragment : Event → Option Fragment
  | .frame _ bytes => Fragment.unpack bytes
  | .tick _ => none

/-- The messages that an event completes under an id. -/
def delivered (L : Limits) (id : ℕ) (t : Table) : Event → List Message
  | .frame now bytes =>
      match Fragment.unpack bytes with
      | none => []
      | some f =>
          match (L.reassemble t now f).2 with
          | .ok (some message) => if f.msg_id = id then [message] else []
          | _ => []
  | .tick _ => []

/-- The messages that some events complete under an id. -/
def outputs (L : Limits) (id : ℕ) : Table → List Event → List Message
  | _, [] => []
  | t, e :: es => L.delivered id t e ++ outputs L id (L.step t e) es

/-- The numbers of the fragments with an id, as they come in. -/
def arrivals (id : ℕ) (events : List Event) : List ℕ :=
  events.filterMap fun e => e.fragment.bind fun f => if f.msg_id = id then some f.idx else none

/-- An event that leaves a message alone or is one of its frames: the other fragments are of other
messages, there is room in the table for one that opens, and a tick does not find the message
too old. -/
def Undisturbed (L : Limits) (id : ℕ) (frames : List Bytes) (t : Table) : Event → Prop
  | .frame _ bytes =>
      (bytes ∈ frames ∨ ∀ f, Fragment.unpack bytes = some f → f.msg_id ≠ id) ∧
        ∀ f, Fragment.unpack bytes = some f → L.Fits f → t.get f.msg_id = none →
          (t.items.length : ℤ) < L.max_reassemblies
  | .tick now => ∀ r, t.get id = some r → ¬ L.reassembly_timeout < now - r.started

/-- An event of the run: one of the message's fragments, or nothing that the message notices. -/
inductive Passes (L : Limits) (m : Sent) (t : Table) (seen : List ℕ) (e : Event) : Prop
  | next (i : ℕ) (res : Table × Except PyError (Option Message)) : i < m.total →
      e.fragment = some (m.fragment i) → L.step t e = res.1 →
      (∀ message, res.2 = .ok (some message) → L.delivered m.msg_id t e = [message]) →
      (res.2 = .ok none → L.delivered m.msg_id t e = []) → Next m seen i res → Passes L m t seen e
  | other : (∀ f, e.fragment = some f → f.msg_id ≠ m.msg_id) → L.delivered m.msg_id t e = [] →
      Progress m (L.step t e) seen → Passes L m t seen e

/-- A fragment of another message leaves this one, if it evicts none. -/
theorem get_reassemble_of_ne {f : Fragment} {now : ℚ} {id : ℕ} (hid : f.msg_id ≠ id)
    (hroom : L.Fits f → t.get f.msg_id = none → (t.items.length : ℤ) < L.max_reassemblies) :
    (L.reassemble t now f).1.get id = t.get id := by
  have hres := @reassembled L t f now
  generalize L.reassemble t now f = res at hres ⊢
  cases hres with
  | refused => rfl
  | known r _ hr hadded => exact hadded.get_of_ne hid.symm
  | opens _ hget _ hadded =>
      rw [hadded.get_of_ne hid.symm, OrderedDict.get_set, if_neg hid.symm]
  | evicts k hfits hget hfull => exact absurd (hroom hfits hget) (not_lt.mpr hfull)
  | raises => rfl

theorem Progress.congr {t' : Table} (h : Progress m t seen)
    (hget : t'.get m.msg_id = t.get m.msg_id) : Progress m t' seen :=
  ⟨fun r hr => h.holds r (hget ▸ hr), fun hnone => h.nothing (hget ▸ hnone)⟩

theorem Progress.passes (h : Progress m t seen) (ht : L.Sound t) (hm : Suits L m) {frames : List Bytes}
    (hframes : frames = (List.range m.total).map fun i => (m.fragment i).frame) {e : Event}
    (he : L.Undisturbed m.msg_id frames t e) : Passes L m t seen e := by
  cases e with
  | tick now =>
      refine .other (fun f hf => by cases hf) rfl (h.congr ?_)
      cases hget : t.get m.msg_id with
      | none =>
          cases hstep : (L.step t (.tick now)).get m.msg_id with
          | none => rfl
          | some r =>
              have hr := (OrderedDict.get_filter_eq_some_iff.mp hstep).1
              cases hget.symm.trans hr
      | some r =>
          exact OrderedDict.get_filter_eq_some_iff.mpr ⟨hget, decide_eq_true (he r hget)⟩
  | frame now bytes =>
      obtain ⟨hown, hroom⟩ := he
      cases hunpack : Fragment.unpack bytes with
      | none =>
          have hstep : L.step t (.frame now bytes) = t := by
            rw [step, inbound, hunpack]
          refine .other (fun f hf => by cases hunpack.symm.trans hf) ?_ (h.congr ?_)
          · rw [delivered, hunpack]
          · rw [hstep]
      | some f =>
          have hstep : L.step t (.frame now bytes) = (L.reassemble t now f).1 := by
            rw [step, inbound, hunpack]
          by_cases hid : f.msg_id = m.msg_id
          · have hmem : bytes ∈ frames := hown.resolve_right fun hother => hother f hunpack hid
            rw [hframes] at hmem
            obtain ⟨i, hi, rfl⟩ := List.mem_map.mp hmem
            have hi := List.mem_range.mp hi
            obtain rfl := Option.some.inj
              (hunpack.symm.trans (Sent.unpack_fragment hm.msg_id hm.total hi))
            refine .next i (L.reassemble t now (m.fragment i)) hi hunpack hstep ?_ ?_
              (h.reassemble ht hm hi (hroom _ hunpack (Sent.fits hm.same hm.size hm.short hi)))
            · intro message hmessage
              rw [delivered, hunpack]
              dsimp only
              rw [hmessage]
              exact if_pos rfl
            · intro hnone
              rw [delivered, hunpack]
              dsimp only
              rw [hnone]
          · refine .other (fun f' hf' => ?_) ?_ (h.congr ?_)
            · exact Option.some.inj (hunpack.symm.trans hf') ▸ hid
            · rw [delivered, hunpack]
              dsimp only
              split
              · exact if_neg hid
              · rfl
            · rw [hstep]
              exact get_reassemble_of_ne hid (hroom f hunpack)

/-- The message comes out once in each round. -/
theorem outputs_eq (hm : Suits L m) {frames : List Bytes}
    (hframes : frames = (List.range m.total).map fun i => (m.fragment i).frame) :
    ∀ {events : List Event} {t : Table} {seen : List ℕ}, Progress m t seen → L.Sound t →
      Along.All L.step (L.Undisturbed m.msg_id frames) t events →
      L.outputs m.msg_id t events =
        List.replicate (rounds m.total seen (arrivals m.msg_id events)) (m.data, m.reliable)
  | [], _, _, _, _, _ => rfl
  | e :: es, t, seen, h, ht, ⟨he, hes⟩ => by
      rw [outputs]
      cases h.passes ht hm hframes he with
      | next i res hi hfragment hstep hsome hnone hnext =>
          have harrivals : arrivals m.msg_id (e :: es) = i :: arrivals m.msg_id es := by
            refine List.filterMap_cons_some ?_
            rw [hfragment]
            exact if_pos rfl
          rw [harrivals, rounds]
          by_cases hall : ∀ j < m.total, j ∈ i :: seen
          · obtain ⟨hres, hprogress⟩ := hnext.whole hall
            rw [if_pos hall, hsome _ hres, outputs_eq hm hframes (hstep ▸ hprogress) (ht.step e) hes]
            rfl
          · obtain ⟨hres, hprogress⟩ := hnext.more hall
            rw [if_neg hall, hnone hres, outputs_eq hm hframes (hstep ▸ hprogress) (ht.step e) hes]
            rfl
      | other hother hdelivered hprogress =>
          have harrivals : arrivals m.msg_id (e :: es) = arrivals m.msg_id es := by
            refine List.filterMap_cons_none ?_
            cases hfragment : e.fragment with
            | none => rfl
            | some f => exact if_neg (hother f hfragment)
          rw [harrivals, hdelivered, outputs_eq hm hframes hprogress (ht.step e) hes]
          rfl

/-- Whatever comes in, at most `max_reassemblies` messages are held in part, none of them with more
than `max_message` bytes.  A message that is not too long comes out as it was sent, once in each
round of its fragments, in whatever order these come and whatever else comes between them: it does
come out if they all come, and it comes out no more often than any of them. -/
theorem reassembly_spec (L : Limits) :
    (∀ events, ((L.run events).items.length : ℤ) ≤ max 0 L.max_reassemblies ∧
      ∀ id r, (L.run events).get id = some r →
        r.size = (r.parts.values.map List.length).sum ∧ (r.size : ℤ) ≤ L.max_message) ∧
    ∀ (id : ℕ) (data : Bytes) (reliable : Bool) (frames : List Bytes) (before events : List Event),
      fragments id data reliable L.fragment_size = some frames →
      (data.length : ℤ) ≤ L.max_message → (L.run before).get id = none →
      Along.All L.step (L.Undisturbed id frames) (L.run before) events →
        L.outputs id (L.run before) events =
          List.replicate (rounds frames.length [] (arrivals id events)) (data, reliable) ∧
        (0 < rounds frames.length [] (arrivals id events) ↔
          ∀ i < frames.length, i ∈ arrivals id events) ∧
        ∀ i < frames.length,
          rounds frames.length [] (arrivals id events) ≤ (arrivals id events).count i := by
  constructor
  · intro events
    have hsound := @run_kept_sound L events
    exact ⟨hsound.few, fun id r hr => ⟨(hsound.held id r hr).size, (hsound.held id r hr).bounded⟩⟩
  · intro id data reliable frames before events hcut hshort hnew hok
    let m : Sent := { msg_id := id, data, reliable, size := L.fragment_size }
    obtain ⟨hsize, htotal, hid, hframes⟩ := @Sent.fragments_eq_some m frames hcut
    have hlength : frames.length = m.total := by
      rw [hframes, List.length_map, List.length_range]
    have hm : Suits L m := ⟨hsize, rfl, hid, htotal, hshort⟩
    have hstart : Progress m (L.run before) [] :=
      ⟨fun r hr => (nomatch hnew.symm.trans hr), fun _ => rfl⟩
    have hnone : ¬ ∀ j < frames.length, j ∈ ([] : List ℕ) := fun hall =>
      List.not_mem_nil (hall 0 (hlength ▸ Sent.total_pos))
    refine ⟨hlength ▸ outputs_eq hm hframes hstart (run_kept_sound before) hok, ?_, fun i hi => ?_⟩
    · rw [rounds_pos_iff hnone]
      simp only [List.not_mem_nil, false_or]
    · exact rounds_le_count hi _ []

namespace Sample

/-- A message of one fragment. -/
def frame : Bytes := (Fragment.mk 1 0 1 true [7]).frame

theorem fragments_frame : fragments 1 [7] true ({} : Limits).fragment_size = some [frame] := by
  decide

/-- Sent again before its acknowledgement has come. -/
def twice : List Event := [.frame 0 frame, .frame 1 frame]

theorem outputs_twice : ({} : Limits).outputs 1 .empty twice = [([7], true), ([7], true)] := by
  decide

/-- A message can come out twice. -/
theorem completed_twice : ¬ ∀ (L : Limits) (id : ℕ) (data : Bytes) (reliable : Bool)
    (frames : List Bytes) (events : List Event),
    fragments id data reliable L.fragment_size = some frames →
    (data.length : ℤ) ≤ L.max_message →
    Along.All L.step (L.Undisturbed id frames) .empty events →
    (∀ bytes ∈ frames, ∃ now, .frame now bytes ∈ events) →
      L.outputs id .empty events = [(data, reliable)] := by
  intro hclaim
  have hroom : ∀ (t : Table) now, t.items.length = 0 →
      ({} : Limits).Undisturbed 1 [frame] t (.frame now frame) := by
    intro t now hempty
    refine ⟨.inl List.mem_cons_self, fun f _ _ _ => ?_⟩
    rw [hempty]
    decide
  have hok : Along.All ({} : Limits).step (({} : Limits).Undisturbed 1 [frame]) .empty twice :=
    ⟨hroom _ 0 rfl, hroom _ 1 (by decide), trivial⟩
  have hall : ∀ bytes ∈ [frame], ∃ now, Event.frame now bytes ∈ twice := by
    intro bytes hbytes
    obtain rfl := List.mem_singleton.mp hbytes
    exact ⟨0, List.mem_cons_self⟩
  have hone := hclaim {} 1 [7] true [frame] twice fragments_frame (by decide) hok hall
  rw [outputs_twice] at hone
  exact nomatch hone

end Sample

end Limits

end Secdogie.Dialogue
