/-
# `Secdogie.Dialogue.Reassembly` — messages in fragments

A message is cut into fragments, each with the message's id, its own number
and how many there are.  The other side holds what it has of each message in a
table, of which the oldest entry gives way when it is full.  Neither the table
nor a partial message outgrows its bound (`run_kept_sound`), whatever comes in.
-/
import Secdogie.Lib.Along
import Secdogie.Lib.BigEndian
import Secdogie.Lib.OrderedDict

namespace Secdogie.Dialogue

abbrev Bytes := List UInt8

/-- What a session is made with, as far as it bears on fragments. -/
structure Limits where
  fragment_size : ℕ := 16 * 1024
  max_message : ℤ := 4 * 1024 * 1024
  max_reassemblies : ℤ := 32
  reassembly_timeout : ℚ := 10

/-- What a frame with the tag `b"D"` says. -/
structure Fragment where
  msg_id : ℕ
  idx : ℕ
  total : ℕ
  reliable : Bool
  chunk : Bytes
deriving DecidableEq

namespace Fragment

/-- `b"D"` -/
def TAG : UInt8 := 68

/-- The bytes of `_FRAG`, as far as its numbers fit. -/
def frame (f : Fragment) : Bytes :=
  TAG :: (toBE 8 f.msg_id ++ (toBE 2 f.idx ++ (toBE 2 f.total ++
    ((if f.reliable then 1 else 0) :: f.chunk))))

/-- The fragment in a frame. -/
def unpack : Bytes → Option Fragment
  | [] => none
  | tag :: body =>
      if tag ≠ TAG ∨ body.length < 13 then none
      else
        some { msg_id := ofBE (body.take 8)
               idx := ofBE ((body.drop 8).take 2)
               total := ofBE (((body.drop 8).drop 2).take 2)
               reliable := ((((body.drop 8).drop 2).drop 2).headD 0) &&& 1 ≠ 0
               chunk := (((body.drop 8).drop 2).drop 2).tail }

/-- The numbers fit the header. -/
def Packs (f : Fragment) : Prop := f.msg_id < 2 ^ 64 ∧ f.idx < 2 ^ 16 ∧ f.total < 2 ^ 16

theorem unpack_frame {f : Fragment} (h : f.Packs) : unpack f.frame = some f := by
  obtain ⟨hid, hidx, htotal⟩ := h
  rw [frame, unpack, if_neg]
  · rw [ofBE_take_toBE hid, drop_toBE, ofBE_take_toBE hidx, drop_toBE, ofBE_take_toBE htotal,
      drop_toBE, List.headD_cons, List.tail_cons]
    congr
    cases f.reliable
    all_goals rfl
  · rintro (htag | hlength)
    · exact htag rfl
    · simp only [List.length_append, length_toBE, List.length_cons] at hlength
      omega

end Fragment

/-- `fragments`; `none` if it raises. -/
def fragments (msg_id : ℕ) (data : Bytes) (reliable : Bool) (size : ℕ) : Option (List Bytes) :=
  if size = 0 then none
  else
    let total := (max 1 (-(-(data.length : ℤ) / size))).toNat
    if 0xFFFF < total ∨ 2 ^ 64 ≤ msg_id then none
    else
      some <| (List.range total).map fun idx =>
        Fragment.frame { msg_id, idx, total, reliable, chunk := (data.drop (idx * size)).take size }

/-! ## The table -/

/-- `_Reassembly` -/
structure Partial where
  total : ℕ
  reliable : Bool
  started : ℚ
  parts : OrderedDict ℕ Bytes := .empty
  size : ℕ := 0

/-- What a message starts with. -/
def Fragment.opening (f : Fragment) (now : ℚ) : Partial :=
  { total := f.total, reliable := f.reliable, started := now }

abbrev Table := OrderedDict ℕ Partial

inductive PyError where
  | valueError | keyError
deriving DecidableEq

/-- A whole message, and whether its fragments were marked reliable. -/
abbrev Message := Bytes × Bool

/-- `min(self._reassembly, key=...started)`; `none` if there is none. -/
def Table.oldest (t : Table) : Option ℕ := (t.items.argmin fun e => e.2.started).map Prod.fst

/-- `b"".join(r.parts[i] for i in range(r.total))` -/
def Partial.joined (r : Partial) : Option Bytes :=
  ((List.range r.total).mapM r.parts.get).map List.flatten

def Partial.put (r : Partial) (f : Fragment) : Partial :=
  { r with parts := r.parts.set f.idx f.chunk, size := r.size + f.chunk.length }

namespace Limits

variable (L : Limits)

/-- A fragment, to what there is of its message. -/
def add (t : Table) (r : Partial) (f : Fragment) : Table × Except PyError (Option Message) :=
  if r.total ≠ f.total ∨ r.reliable ≠ f.reliable ∨ f.idx ∈ r.parts.keys then (t, .ok none)
  else if L.max_message < r.size + f.chunk.length then (t.pop f.msg_id, .ok none)
  else if (r.put f).parts.items.length < r.total then (t.set f.msg_id (r.put f), .ok none)
  else
    match (r.put f).joined with
    | none => (t.pop f.msg_id, .error .keyError)
    | some data => (t.pop f.msg_id, .ok (some (data, r.reliable)))

/-- A fragment that passes the checks on its own numbers. -/
def Fits (f : Fragment) : Prop :=
  f.total ≠ 0 ∧ f.idx < f.total ∧
    (f.total * L.fragment_size : ℤ) ≤ L.max_message + L.fragment_size ∧
    f.chunk.length ≤ L.fragment_size

instance (f : Fragment) : Decidable (L.Fits f) := inferInstanceAs (Decidable (_ ∧ _ ∧ _ ∧ _))

/-- `_reassemble` -/
def reassemble (t : Table) (now : ℚ) (f : Fragment) : Table × Except PyError (Option Message) :=
  if L.Fits f then
    match t.get f.msg_id with
    | some r => L.add t r f
    | none =>
        let r := f.opening now
        if L.max_reassemblies ≤ t.items.length then
          match t.oldest with
          | none => (t, .error .valueError)
          | some m => L.add ((t.pop m).set f.msg_id r) r f
        else L.add (t.set f.msg_id r) r f
  else (t, .ok none)

/-- What can happen to the table. -/
inductive Event where
  | frame (now : ℚ) (bytes : Bytes)
  | tick (now : ℚ)

/-- A frame, as far as it bears on the table. -/
def inbound (t : Table) (now : ℚ) (bytes : Bytes) : Table × Except PyError (Option Message) :=
  match Fragment.unpack bytes with
  | none => (t, .ok none)
  | some f => L.reassemble t now f

def step (t : Table) : Event → Table
  | .frame now bytes => (L.inbound t now bytes).1
  | .tick now => t.filter fun _ r => ¬ L.reassembly_timeout < now - r.started

def run (events : List Event) : Table := events.foldl L.step .empty

/-! ## What a fragment does -/

variable {L} {t : Table} {r : Partial} {f : Fragment} {now : ℚ}

/-- The fragment is not of the message that is held, or is held already. -/
def Ignored (r : Partial) (f : Fragment) : Prop :=
  r.total ≠ f.total ∨ r.reliable ≠ f.reliable ∨ f.idx ∈ r.parts.keys

theorem not_ignored (h : ¬ Ignored r f) :
    r.total = f.total ∧ r.reliable = f.reliable ∧ f.idx ∉ r.parts.keys := by
  obtain ⟨htotal, hrest⟩ := not_or.mp h
  obtain ⟨hreliable, hidx⟩ := not_or.mp hrest
  exact ⟨not_not.mp htotal, not_not.mp hreliable, hidx⟩

inductive Added (L : Limits) (t : Table) (r : Partial) (f : Fragment) :
    Table × Except PyError (Option Message) → Prop
  | ignored : Ignored r f → Added L t r f (t, .ok none)
  | dropped : ¬ Ignored r f → L.max_message < r.size + f.chunk.length →
      Added L t r f (t.pop f.msg_id, .ok none)
  | grew : ¬ Ignored r f → (r.size + f.chunk.length : ℤ) ≤ L.max_message →
      (r.put f).parts.items.length < r.total → Added L t r f (t.set f.msg_id (r.put f), .ok none)
  | whole (data : Bytes) : ¬ Ignored r f → r.total ≤ (r.put f).parts.items.length →
      (r.put f).joined = some data → Added L t r f (t.pop f.msg_id, .ok (some (data, r.reliable)))
  | broken : ¬ Ignored r f → r.total ≤ (r.put f).parts.items.length → (r.put f).joined = none →
      Added L t r f (t.pop f.msg_id, .error .keyError)

theorem added : Added L t r f (L.add t r f) := by
  rw [add]
  by_cases hignored : r.total ≠ f.total ∨ r.reliable ≠ f.reliable ∨ f.idx ∈ r.parts.keys
  · rw [if_pos hignored]
    exact .ignored hignored
  rw [if_neg hignored]
  by_cases hsize : L.max_message < r.size + f.chunk.length
  · rw [if_pos hsize]
    exact .dropped hignored hsize
  rw [if_neg hsize]
  by_cases hlength : (r.put f).parts.items.length < r.total
  · rw [if_pos hlength]
    exact .grew hignored (not_lt.mp hsize) hlength
  rw [if_neg hlength]
  cases hjoined : (r.put f).joined with
  | none => exact .broken hignored (not_lt.mp hlength) hjoined
  | some data => exact .whole data hignored (not_lt.mp hlength) hjoined

inductive Reassembled (L : Limits) (t : Table) (now : ℚ) (f : Fragment) :
    Table × Except PyError (Option Message) → Prop
  | refused : ¬ L.Fits f → Reassembled L t now f (t, .ok none)
  | known (r : Partial) {res : Table × Except PyError (Option Message)} : L.Fits f →
      t.get f.msg_id = some r → Added L t r f res → Reassembled L t now f res
  | opens {res : Table × Except PyError (Option Message)} : L.Fits f → t.get f.msg_id = none →
      (t.items.length : ℤ) < L.max_reassemblies →
      Added L (t.set f.msg_id (f.opening now)) (f.opening now) f res → Reassembled L t now f res
  | evicts (m : ℕ) {res : Table × Except PyError (Option Message)} : L.Fits f →
      t.get f.msg_id = none → L.max_reassemblies ≤ t.items.length → t.oldest = some m →
      Added L ((t.pop m).set f.msg_id (f.opening now)) (f.opening now) f res →
      Reassembled L t now f res
  | raises : L.Fits f → t.get f.msg_id = none → L.max_reassemblies ≤ t.items.length →
      t.oldest = none → Reassembled L t now f (t, .error .valueError)

theorem reassembled : Reassembled L t now f (L.reassemble t now f) := by
  rw [reassemble]
  by_cases hfits : L.Fits f
  · rw [if_pos hfits]
    cases hget : t.get f.msg_id with
    | some r => exact .known r hfits hget added
    | none =>
        dsimp only
        by_cases hfull : L.max_reassemblies ≤ t.items.length
        · rw [if_pos hfull]
          cases holdest : t.oldest with
          | none => exact .raises hfits hget hfull holdest
          | some m => exact .evicts m hfits hget hfull holdest added
        · rw [if_neg hfull]
          exact .opens hfits hget (not_le.mp hfull) added
  · rw [if_neg hfits]
    exact .refused hfits

/-- A fragment leaves the other messages alone, unless it takes the place of one. -/
theorem Added.get_of_ne {res : Table × Except PyError (Option Message)} {id : ℕ}
    (h : Added L t r f res) (hid : id ≠ f.msg_id) : res.1.get id = t.get id := by
  cases h with
  | ignored => rfl
  | dropped => rw [OrderedDict.get_pop, if_neg hid]
  | grew => rw [OrderedDict.get_set, if_neg hid]
  | whole => rw [OrderedDict.get_pop, if_neg hid]
  | broken => rw [OrderedDict.get_pop, if_neg hid]

/-! ## The bounds -/

/-- What holds of a message that is partly there. -/
structure Held (L : Limits) (r : Partial) : Prop where
  size : r.size = (r.parts.values.map List.length).sum
  bounded : (r.size : ℤ) ≤ L.max_message
  keys : ∀ i ∈ r.parts.keys, i < r.total
  missing : r.parts.items.length < r.total

structure Sound (L : Limits) (t : Table) : Prop where
  few : (t.items.length : ℤ) ≤ max 0 L.max_reassemblies
  held : ∀ id r, t.get id = some r → L.Held r

theorem size_put (h : r.size = (r.parts.values.map List.length).sum) (hidx : f.idx ∉ r.parts.keys) :
    (r.put f).size = ((r.put f).parts.values.map List.length).sum := by
  rw [Partial.put, OrderedDict.values, OrderedDict.items_set_new hidx, List.map_append,
    List.map_append, List.sum_append, h]
  rfl

theorem keys_put (h : ∀ i ∈ r.parts.keys, i < r.total) (hidx : f.idx < r.total) :
    ∀ i ∈ (r.put f).parts.keys, i < r.total := by
  intro i hi
  rw [Partial.put, OrderedDict.keys_set] at hi
  split_ifs at hi
  · exact h i hi
  · rcases List.mem_append.mp hi with hold | hnew
    · exact h i hold
    · exact List.mem_singleton.mp hnew ▸ hidx

/-- The table after a fragment, if that was put to something like what the table holds. -/
theorem Added.sound {res : Table × Except PyError (Option Message)} (h : Added L t r f res)
    (hr : t.get f.msg_id = some r) (hfew : (t.items.length : ℤ) ≤ max 0 L.max_reassemblies)
    (hheld : ∀ id r, id ≠ f.msg_id → t.get id = some r → L.Held r)
    (hsize : r.size = (r.parts.values.map List.length).sum) (hkeys : ∀ i ∈ r.parts.keys, i < r.total)
    (hidx : f.idx < f.total) (hignored : Ignored r f → L.Held r) : L.Sound res.1 := by
  have hpop : L.Sound (t.pop f.msg_id) := by
    refine ⟨le_trans (Nat.cast_le.mpr OrderedDict.length_pop_le) hfew, fun id r' hr' => ?_⟩
    rw [OrderedDict.get_pop] at hr'
    split_ifs at hr' with hid
    exact hheld id r' hid hr'
  cases h with
  | ignored hig =>
      refine ⟨hfew, fun id r' hr' => ?_⟩
      by_cases hid : id = f.msg_id
      · obtain rfl := Option.some.inj ((hid ▸ hr').symm.trans hr)
        exact hignored hig
      · exact hheld id r' hid hr'
  | dropped => exact hpop
  | grew hnot hbounded hlength =>
      refine ⟨?_, fun id r' hr' => ?_⟩
      · rw [OrderedDict.length_set, hr, if_neg (fun hnone => by cases hnone)]
        exact hfew
      · rw [OrderedDict.get_set] at hr'
        split_ifs at hr' with hid
        · obtain rfl := Option.some.inj hr'
          obtain ⟨htotal, -, hnew⟩ := not_ignored hnot
          have hlt : f.idx < r.total := htotal ▸ hidx
          exact ⟨size_put hsize hnew, hbounded, keys_put hkeys hlt, hlength⟩
        · exact hheld id r' hid hr'
  | whole => exact hpop
  | broken => exact hpop

theorem not_ignored_opening : ¬ Ignored (f.opening now) f := by
  rintro (htotal | hreliable | hidx)
  · exact htotal rfl
  · exact hreliable rfl
  · exact nomatch hidx

theorem mem_keys_oldest {m : ℕ} (h : t.oldest = some m) : m ∈ t.keys := by
  obtain ⟨e, he, rfl⟩ := Option.map_eq_some_iff.mp h
  exact List.mem_map_of_mem (List.argmin_mem he)

/-- What a fragment opens is put to a table with one message more. -/
theorem Added.sound_opening {res : Table × Except PyError (Option Message)}
    (h : Added L (t.set f.msg_id (f.opening now)) (f.opening now) f res) (ht : ∀ id r, t.get id = some r → L.Held r)
    (hget : t.get f.msg_id = none) (hfew : (t.items.length + 1 : ℤ) ≤ max 0 L.max_reassemblies)
    (hfits : L.Fits f) : L.Sound res.1 := by
  refine h.sound ?_ ?_ (fun id r hid hr => ?_) rfl (fun i hi => nomatch hi) hfits.2.1
    fun hignored => absurd hignored not_ignored_opening
  · rw [OrderedDict.get_set, if_pos rfl]
  · rw [OrderedDict.length_set, hget, if_pos rfl, Nat.cast_add, Nat.cast_one]
    exact hfew
  · rw [OrderedDict.get_set, if_neg hid] at hr
    exact ht id r hr

theorem Sound.reassemble (ht : L.Sound t) : L.Sound (L.reassemble t now f).1 := by
  have hres := @reassembled L t f now
  generalize L.reassemble t now f = res at hres ⊢
  cases hres with
  | refused => exact ht
  | known r hfits hr hadded =>
      have hheld := ht.held f.msg_id r hr
      exact hadded.sound hr ht.few (fun id r' _ hr' => ht.held id r' hr') hheld.size hheld.keys
        hfits.2.1 fun _ => hheld
  | opens hfits hget hroom hadded =>
      exact hadded.sound_opening ht.held hget (le_max_of_le_right (by omega)) hfits
  | evicts m hfits hget hfull holdest hadded =>
      refine hadded.sound_opening (fun id r hr => ?_) ?_ ?_ hfits
      · rw [OrderedDict.get_pop] at hr
        split_ifs at hr
        exact ht.held id r hr
      · rw [OrderedDict.get_pop, hget, ite_self]
      · have hlt : (t.pop m).items.length < t.items.length :=
          OrderedDict.length_pop_lt (mem_keys_oldest holdest)
        have hfew := ht.few
        omega
  | raises => exact ht

theorem Sound.step (ht : L.Sound t) (e : Event) : L.Sound (L.step t e) := by
  cases e with
  | frame now bytes =>
      rw [Limits.step, inbound]
      cases Fragment.unpack bytes with
      | none => exact ht
      | some f => exact ht.reassemble
  | tick now =>
      refine ⟨le_trans (Nat.cast_le.mpr OrderedDict.length_filter_le) ht.few, fun id r hr => ?_⟩
      exact ht.held id r (OrderedDict.get_filter_eq_some_iff.mp hr).1

theorem run_kept_sound (events : List Event) : L.Sound (L.run events) :=
  Along.inv_foldl (fun _ e ht => ht.step e) events
    ⟨le_max_left _ _, fun _ _ hr => nomatch hr⟩

end Limits

end Secdogie.Dialogue
