/-
# `Secdogie.Signaling.Told` — what the sessions of a room are told

What a session was told are its `welcome` list, and then those that joined without
those that left, in the order they were sent.  A drop takes sessions out of the room,
and tells each that stays of each that left (`drop_cut`), although the drops are nested.

A join sends the `welcome` first, and then tells the others, even when the session was
dropped because its `welcome` could not be sent.  `tells_iff` says that this is the only
way for the room to tell what is not so.
-/
import Secdogie.Signaling.Room

namespace Secdogie.Signaling.Room

variable (fails : ℕ → Bool)

/-! ## Drops within drops -/

theorem sendJson_sessions (r : Room) (dest : Id) (msg : Message) :
    (r.sendJson fails dest msg).1.sessions = r.sessions := by
  unfold sendJson
  split
  · rfl
  · rfl

/-- The room does not grow. -/
def Shrinks (drop : Room → Id → ℕ → String → Room) : Prop :=
  ∀ r id code reason, (drop r id code reason).sessions.length ≤ r.sessions.length

section

variable {drop drop' : Room → Id → ℕ → String → Room} (hdrop : Shrinks drop)

include hdrop in
theorem sendOr_length (r : Room) (dest : Id) (msg : Message) :
    (r.sendOr fails drop dest msg).sessions.length ≤ r.sessions.length := by
  have hsame := congrArg List.length (sendJson_sessions fails r dest msg)
  unfold sendOr
  dsimp only
  split
  · exact le_of_eq hsame
  · exact le_trans (hdrop _ _ _ _) (le_of_eq hsame)

include hdrop in
theorem broadcastLoop_length (except : Option Id) (msg : Message) : ∀ (l : List Id) (r : Room),
    (broadcastLoop fails drop except msg l r).sessions.length ≤ r.sessions.length := by
  intro l
  induction l with
  | nil => exact fun r => le_refl _
  | cons dest rest ih =>
      intro r
      refine le_trans (ih _) ?_
      split
      · exact le_refl _
      · exact sendOr_length fails hdrop r dest msg

include hdrop in
/-- Two drops that do the same in the rooms the loop comes to. -/
theorem broadcastLoop_congr {m : ℕ}
    (hsame : ∀ r : Room, r.sessions.length ≤ m → drop r = drop' r)
    (except : Option Id) (msg : Message) : ∀ (l : List Id) (r : Room), r.sessions.length ≤ m →
      broadcastLoop fails drop except msg l r = broadcastLoop fails drop' except msg l r := by
  intro l
  induction l with
  | nil => exact fun r _ => rfl
  | cons dest rest ih =>
      intro r hr
      have hsend : r.sendOr fails drop dest msg = r.sendOr fails drop' dest msg := by
        have hlen := congrArg List.length (sendJson_sessions fails r dest msg)
        unfold sendOr
        dsimp only
        rw [hsame _ (le_trans (le_of_eq hlen) hr)]
      have hnext : (if except = some dest then r else r.sendOr fails drop dest msg).sessions.length ≤
          m := by
        split
        · exact hr
        · exact le_trans (sendOr_length fails hdrop r dest msg) hr
      unfold broadcastLoop
      rw [ih _ hnext, hsend]

end

theorem delete_length (r : Room) (id : Id) (code : ℕ) (reason : String) :
    (r.delete id code reason).sessions.length ≤ r.sessions.length :=
  List.length_filter_le _ _

theorem delete_lt {r : Room} {id : Id} (hmem : id ∈ r.ids) (code : ℕ) (reason : String) :
    (r.delete id code reason).sessions.length < r.sessions.length := by
  obtain ⟨s, hs, hid⟩ := List.mem_map.mp hmem
  refine List.length_filter_lt_length_iff_exists.mpr ⟨s, hs, ?_⟩
  simp only [hid, ne_eq, not_true_eq_false, decide_false, Bool.false_eq_true, not_false_eq_true]

theorem dropAt_shrinks : ∀ k, Shrinks (dropAt fails k) := by
  intro k
  induction k with
  | zero => exact fun r _ _ _ => le_refl _
  | succ k ih =>
      intro r id code reason
      unfold dropAt
      split
      · exact le_refl _
      · exact le_trans (broadcastLoop_length fails ih _ _ _ _) (delete_length r id code reason)

theorem dropAt_absent (k : ℕ) {r : Room} {id : Id} (hnot : id ∉ r.ids) (code : ℕ)
    (reason : String) : dropAt fails k r id code reason = r := by
  cases k with
  | zero => rfl
  | succ k => exact if_pos hnot

/-- No more drops lie within one another than there are sessions. -/
theorem dropAt_enough : ∀ (k j : ℕ) (r : Room), r.sessions.length ≤ k → r.sessions.length ≤ j →
    dropAt fails k r = dropAt fails j r := by
  intro k
  induction k with
  | zero =>
      intro j r hk _
      have hnone : r.ids = [] := by
        unfold ids
        rw [List.length_eq_zero_iff.mp (Nat.le_zero.mp hk)]
        rfl
      funext id code reason
      have hnot : id ∉ r.ids := by
        rw [hnone]
        exact List.not_mem_nil
      rw [dropAt_absent fails 0 hnot, dropAt_absent fails j hnot]
  | succ k ih =>
      intro j r hk hj
      funext id code reason
      by_cases hmem : id ∈ r.ids
      · have hless := delete_lt hmem code reason
        cases j with
        | zero => omega
        | succ j =>
            unfold dropAt
            rw [if_neg (not_not.mpr hmem), if_neg (not_not.mpr hmem)]
            refine broadcastLoop_congr fails (dropAt_shrinks fails k) (m := k ⊓ j) (fun r' hr' => ?_)
              _ _ _ _ (by omega)
            exact ih j r' (by omega) (by omega)
      · rw [dropAt_absent fails (k + 1) hmem, dropAt_absent fails j hmem]

/-- `drop`: the session is taken out, and the rest of the room is told. -/
theorem drop_eq (r : Room) (id : Id) (code : ℕ) (reason : String) :
    r.drop fails id code reason =
      if id ∉ r.ids then r
      else (r.delete id code reason).broadcast fails none (.peerLeft id) := by
  by_cases hmem : id ∈ r.ids
  · rw [if_neg (not_not.mpr hmem)]
    have hless := delete_lt hmem code reason
    unfold drop
    cases hlen : r.sessions.length with
    | zero => omega
    | succ k =>
        unfold dropAt broadcast
        rw [if_neg (not_not.mpr hmem)]
        refine broadcastLoop_congr fails (dropAt_shrinks fails k) (m := k) (fun r' hr' => ?_)
          _ _ _ _ (by omega)
        exact dropAt_enough fails k _ r' hr' (le_refl _)
  · rw [if_pos hmem]
    exact dropAt_absent fails _ hmem code reason

/-! ## What a session hears -/

/-- What a session makes of what the room did: those it takes to be in the room. -/
def hear (id : Id) (A : Finset Id) : Act → Finset Id
  | .sent dest (.welcome _ peers) => if dest = id then peers.toFinset else A
  | .sent dest (.peerJoined p) => if dest = id then insert p A else A
  | .sent dest (.peerLeft p) => if dest = id then A.erase p else A
  | _ => A

def announced (acts : List Act) (id : Id) : Finset Id := acts.foldl (hear id) ∅

/-- The sessions of a room become fewer, and those that stay hear which left, and which they
are `told` have left. -/
structure Cut (P : Act → Prop) (told : Id → Id → Prop) (r r' : Room) : Prop where
  ids : List.Sublist r'.ids r.ids
  issued : r'.issued = r.issued
  acts : ∃ new, r'.acts = r.acts ++ new ∧ (∀ a ∈ new, P a) ∧
    ∀ id ∈ r'.ids, ∀ (A : Finset Id) (x : Id), x ∈ new.foldl (hear id) A ↔
      x ∈ A ∧ (x ∈ r.ids → x ∈ r'.ids) ∧ ¬ told id x

/-- A session left, and the rest, of which there are so many, was told. -/
def Leaves (n : ℕ) : Act → Prop
  | .sent _ (.peerLeft _) => True
  | .failed _ _ => True
  | .left _ _ _ room => room.length ≤ n
  | _ => False

namespace Cut

variable {P P' : Act → Prop} {told told' : Id → Id → Prop} {r r' r'' : Room}

theorem refl (r : Room) : Cut P (fun _ _ => False) r r where
  ids := List.Sublist.refl _
  issued := rfl
  acts := ⟨[], (List.append_nil _).symm, fun _ ha => absurd ha List.not_mem_nil,
    fun _ _ _ _ => ⟨fun h => ⟨h, fun hx => hx, fun hno => hno⟩, fun h => h.1⟩⟩

theorem trans (h : Cut P told r r') (h' : Cut P told' r' r'') :
    Cut P (fun id x => told id x ∨ told' id x) r r'' := by
  obtain ⟨new, hacts, hP, hhear⟩ := h.acts
  obtain ⟨new', hacts', hP', hhear'⟩ := h'.acts
  refine ⟨h'.ids.trans h.ids, h'.issued.trans h.issued, new ++ new', ?_, fun a ha => ?_,
    fun id hid A x => ?_⟩
  · rw [hacts', hacts, List.append_assoc]
  · exact (List.mem_append.mp ha).elim (hP a) (hP' a)
  · rw [List.foldl_append, hhear' id hid, hhear id (h'.ids.subset hid)]
    have hsub : x ∈ r'.ids → x ∈ r.ids := fun hx => h.ids.subset hx
    have hsub' : x ∈ r''.ids → x ∈ r'.ids := fun hx => h'.ids.subset hx
    tauto

theorem mono (h : Cut P told r r') (hP : ∀ a, P a → P' a)
    (htold : ∀ id ∈ r'.ids, ∀ x, told id x ↔ told' id x) : Cut P' told' r r' := by
  obtain ⟨new, hacts, hnew, hhear⟩ := h.acts
  refine ⟨h.ids, h.issued, new, hacts, fun a ha => hP a (hnew a ha), fun id hid A x => ?_⟩
  rw [hhear id hid, htold id hid]

/-- A first act that no session makes anything of. -/
theorem cons {a : Act} (h : Cut P told { r with tries := r.tries + 1, acts := r.acts ++ [a] } r')
    (ha : P a) (hhear : ∀ id A, hear id A a = A) : Cut P told r r' := by
  obtain ⟨new, hacts, hnew, hnews⟩ := h.acts
  refine ⟨h.ids, h.issued, a :: new, ?_, fun b hb => ?_, fun id hid A x => ?_⟩
  · rw [hacts, List.append_assoc, List.singleton_append]
  · rcases List.mem_cons.mp hb with rfl | hb
    · exact ha
    · exact hnew b hb
  · rw [List.foldl_cons, hhear]
    exact hnews id hid A x

end Cut

theorem Leaves.mono {n m : ℕ} (hle : n ≤ m) {a : Act} (h : Leaves n a) : Leaves m a := by
  cases a with
  | sent dest msg =>
      cases msg with
      | peerLeft p => trivial
      | _ => exact h
  | failed dest msg => trivial
  | left id code reason room => exact le_trans h hle
  | entered room => exact h
  | turnedAway told msg code reason => exact h

/-- In a room of no more than `n`, a drop leaves out the session, and tells the rest. -/
def Drops (N n : ℕ) (drop : Room → Id → ℕ → String → Room) : Prop :=
  ∀ r id code reason, r.sessions.length ≤ n →
    Cut (Leaves N) (fun _ _ => False) r (drop r id code reason) ∧ id ∉ (drop r id code reason).ids

theorem ids_length (r : Room) : r.ids.length = r.sessions.length := List.length_map _

theorem Cut.length {P : Act → Prop} {told : Id → Id → Prop} {r r' : Room} (h : Cut P told r r') :
    r'.sessions.length ≤ r.sessions.length := by
  rw [← ids_length, ← ids_length]
  exact h.ids.length_le

section

variable {N n : ℕ} {drop : Room → Id → ℕ → String → Room} (hdrop : Drops N n drop)

/-- A send that succeeds. -/
theorem sendOr_sent {r : Room} (hok : fails r.tries = false) (dest : Id) (msg : Message) :
    r.sendOr fails drop dest msg =
      { r with tries := r.tries + 1, acts := r.acts ++ [Act.sent dest msg] } := by
  unfold sendOr sendJson
  rw [hok]
  rfl

/-- A send that fails. -/
theorem sendOr_failed {r : Room} (hfail : fails r.tries = true) (dest : Id) (msg : Message) :
    r.sendOr fails drop dest msg =
      drop { r with tries := r.tries + 1, acts := r.acts ++ [Act.failed dest msg] } dest
        CLOSE_INTERNAL_ERROR "send failed" := by
  unfold sendOr sendJson
  rw [hfail]
  rfl

include hdrop in
theorem sendOr_failed_cut {r : Room} (hr : r.sessions.length ≤ n) (hfail : fails r.tries = true)
    (dest : Id) (msg : Message) :
    Cut (Leaves N) (fun _ _ => False) r (r.sendOr fails drop dest msg) ∧
      dest ∉ (r.sendOr fails drop dest msg).ids := by
  rw [sendOr_failed fails hfail]
  obtain ⟨hcut, hgone⟩ := hdrop
    { r with tries := r.tries + 1, acts := r.acts ++ [Act.failed dest msg] } dest
    CLOSE_INTERNAL_ERROR "send failed" hr
  exact ⟨hcut.cons trivial (fun _ _ => rfl), hgone⟩

include hdrop in
/-- A session is told that another has left, or leaves itself. -/
theorem sendOr_left {r : Room} (hr : r.sessions.length ≤ n) (dest X : Id) :
    Cut (Leaves N) (fun id x => id = dest ∧ x = X) r (r.sendOr fails drop dest (.peerLeft X)) := by
  by_cases hfail : fails r.tries = true
  · obtain ⟨hcut, hgone⟩ := sendOr_failed_cut fails hdrop hr hfail dest (.peerLeft X)
    refine hcut.mono (fun _ ha => ha) (fun id hid x => ?_)
    exact iff_of_false (fun hno => hno) (fun htold => hgone (htold.1 ▸ hid))
  · rw [sendOr_sent fails (Bool.eq_false_of_not_eq_true hfail)]
    refine ⟨List.Sublist.refl _, rfl, [Act.sent dest (.peerLeft X)], rfl, fun a ha => ?_,
      fun id _ A x => ?_⟩
    · rw [List.mem_singleton.mp ha]
      trivial
    · have hall : ∀ P : Prop, (x ∈ A ∧ (x ∈ r.ids → x ∈ r.ids) ∧ P) ↔ x ∈ A ∧ P := fun P =>
        and_congr_right (fun _ => and_iff_right (fun h => h))
      show x ∈ (if dest = id then A.erase X else A) ↔ x ∈ A ∧ (x ∈ r.ids → x ∈ r.ids) ∧ _
      rw [hall]
      split
      next heq =>
        rw [Finset.mem_erase, and_comm]
        refine and_congr_right (fun _ => not_congr ?_)
        exact ⟨fun hx => ⟨heq.symm, hx⟩, fun h => h.2⟩
      next hne =>
        exact (and_iff_left (fun h : id = dest ∧ x = X => hne h.1.symm)).symm

include hdrop in
/-- All that the loop comes to are told, or leave. -/
theorem broadcastLoop_left (X : Id) : ∀ (l : List Id) (r : Room), r.sessions.length ≤ n →
    Cut (Leaves N) (fun id x => id ∈ l ∧ x = X) r
      (broadcastLoop fails drop none (.peerLeft X) l r) := by
  intro l
  induction l with
  | nil =>
      intro r _
      exact (Cut.refl r).mono (fun _ ha => ha)
        (fun _ _ _ => iff_of_false (fun hno => hno) (fun h => absurd h.1 List.not_mem_nil))
  | cons dest rest ih =>
      intro r hr
      have hfirst := sendOr_left fails hdrop hr dest X
      have hrest := ih _ (le_trans hfirst.length hr)
      refine (hfirst.trans hrest).mono (fun _ ha => ha) (fun id _ x => ?_)
      rw [List.mem_cons]
      tauto

end

/-- A drop tells every session that stays of every session that leaves. -/
theorem drop_cut (N : ℕ) : ∀ n, n ≤ N → Drops N n (drop fails) := by
  intro n
  induction n with
  | zero =>
      intro _ r id code reason hr
      have hnone : id ∉ r.ids := by
        intro hmem
        have hpos := List.length_pos_of_mem hmem
        rw [ids_length] at hpos
        omega
      rw [drop_eq, if_pos hnone]
      exact ⟨Cut.refl r, hnone⟩
  | succ n ih =>
      intro hN r id code reason hr
      rw [drop_eq]
      by_cases hmem : id ∈ r.ids
      · rw [if_neg (not_not.mpr hmem)]
        have hless := delete_lt hmem code reason
        have hids : (r.delete id code reason).ids = r.ids.filter (fun x => x ≠ id) := by
          unfold ids delete
          rw [List.filter_map]
          rfl
        have hin : ∀ x, x ∈ (r.delete id code reason).ids ↔ x ∈ r.ids ∧ x ≠ id := by
          intro x
          rw [hids, List.mem_filter, decide_eq_true_eq]
        have hloop := broadcastLoop_left fails (ih (by omega)) id (r.delete id code reason).ids
          (r.delete id code reason) (by omega)
        have hgone : id ∉ ((r.delete id code reason).broadcast fails none (.peerLeft id)).ids :=
          fun hstay => ((hin id).mp (hloop.ids.subset hstay)).2 rfl
        refine ⟨?_, hgone⟩
        obtain ⟨new, hacts, hnew, hhear⟩ := hloop.acts
        refine ⟨hloop.ids.trans (hids ▸ List.filter_sublist), hloop.issued,
          Act.left id code reason (r.delete id code reason).ids :: new, ?_, fun a ha => ?_,
          fun s hs A x => ?_⟩
        · unfold broadcast
          rw [hacts]
          exact List.append_assoc _ [_] _
        · rcases List.mem_cons.mp ha with rfl | ha
          · show (r.delete id code reason).ids.length ≤ N
            rw [ids_length]
            omega
          · exact hnew a ha
        · rw [List.foldl_cons]
          have hold : hear s A (Act.left id code reason (r.delete id code reason).ids) = A := rfl
          have hstays : s ∈ (r.delete id code reason).ids := hloop.ids.subset hs
          rw [hold, hhear s hs A x, hin x]
          by_cases hx : x = id
          · refine iff_of_false (fun h => h.2.2 ⟨hstays, hx⟩) (fun h => hgone ?_)
            exact hx ▸ h.2.1 (hx ▸ hmem)
          · refine and_congr_right (fun _ => and_congr ?_ ?_)
            · exact ⟨fun h hmem => h ⟨hmem, hx⟩, fun h hmem => h hmem.1⟩
            · exact iff_of_true (fun h => hx h.2) (fun hno => hno)
      · rw [if_pos hmem]
        exact ⟨Cut.refl r, hmem⟩

/-! ## What is true of a room -/

/-- Each session was told of exactly the other sessions in the room. -/
def Truthful (r : Room) : Prop :=
  ∀ id ∈ r.ids, announced r.acts id = r.ids.toFinset.erase id

/-- The room has no more than two sessions after this. -/
def Crowd : Act → Prop
  | .entered room => room.length ≤ 2
  | .left _ _ _ room => room.length ≤ 2
  | _ => True

/-- A message relayed bears the identifier of the session whose socket sent it, and goes to
another session of the room. -/
def Relayed (source : Option Id) (r : Room) : Act → Prop
  | .sent dest (.relay _ sender _) =>
      source = some sender ∧ sender ∈ r.ids ∧ dest ∈ r.ids ∧ dest ≠ sender
  | _ => True

/-- The session whose socket an event is about, if it is a frame. -/
def Event.source : Event → Option Id
  | .message id _ _ => some id
  | _ => none

def Allowed (source : Option Id) (r : Room) (a : Act) : Prop := Crowd a ∧ Relayed source r a

theorem Leaves.allowed {source : Option Id} {r : Room} {a : Act} (h : Leaves 2 a) :
    Allowed source r a := by
  cases a with
  | sent dest msg =>
      cases msg with
      | peerLeft p => exact ⟨trivial, trivial⟩
      | welcome p peers => exact h.elim
      | peerJoined p => exact h.elim
      | relay type sender payload => exact h.elim
      | error code message => exact h.elim
  | failed dest msg => exact ⟨trivial, trivial⟩
  | entered room => exact h.elim
  | left id code reason room => exact ⟨h, trivial⟩
  | turnedAway told msg code reason => exact h.elim

/-- Where sessions only leave, what is true stays true. -/
theorem Cut.keeps_truthful {P : Act → Prop} {r r' : Room} (h : Cut P (fun _ _ => False) r r')
    (htrue : Truthful r) : Truthful r' := by
  obtain ⟨new, hacts, _, hhear⟩ := h.acts
  intro id hid
  have hold := htrue id (h.ids.subset hid)
  unfold announced at hold ⊢
  rw [hacts, List.foldl_append]
  ext x
  rw [hhear id hid, hold, Finset.mem_erase, Finset.mem_erase, List.mem_toFinset, List.mem_toFinset]
  have hsub : x ∈ r'.ids → x ∈ r.ids := fun hx => h.ids.subset hx
  tauto

/-! ## The events in which no session joins -/

theorem put_ids (r : Room) (session : Session) : (r.put session).ids = r.ids := by
  unfold put ids
  rw [List.map_map]
  refine List.map_congr_left (fun s _ => ?_)
  show (if s.id = session.id then session else s).id = s.id
  split
  next heq => exact heq.symm
  next => rfl

theorem Cut.of_put {P : Act → Prop} {told : Id → Id → Prop} {r r' : Room} {session : Session}
    (h : Cut P told (r.put session) r') : Cut P told r r' := by
  obtain ⟨new, hacts, hnew, hhear⟩ := h.acts
  refine ⟨put_ids r session ▸ h.ids, h.issued, new, hacts, hnew, ?_⟩
  rw [put_ids] at hhear
  exact hhear

theorem drop_allowed {r : Room} (hr : r.sessions.length ≤ 2) (source : Option Id) (r₀ : Room)
    (id : Id) (code : ℕ) (reason : String) :
    Cut (Allowed source r₀) (fun _ _ => False) r (r.drop fails id code reason) :=
  (drop_cut fails 2 2 (le_refl _) r id code reason hr).1.mono (fun _ ha => ha.allowed)
    (fun _ _ _ => Iff.rfl)

/-- A message that announces nothing. -/
theorem send_allowed {r : Room} (hr : r.sessions.length ≤ 2) {source : Option Id} {r₀ : Room}
    {dest : Id} {msg : Message} (hsent : Allowed source r₀ (.sent dest msg))
    (hhear : ∀ id A, hear id A (.sent dest msg) = A) :
    Cut (Allowed source r₀) (fun _ _ => False) r (r.send fails dest msg) := by
  unfold send
  by_cases hfail : fails r.tries = true
  · exact (sendOr_failed_cut fails (drop_cut fails 2 2 (le_refl _)) hr hfail dest msg).1.mono
      (fun _ ha => ha.allowed) (fun _ _ _ => Iff.rfl)
  · rw [sendOr_sent fails (Bool.eq_false_of_not_eq_true hfail)]
    exact (Cut.refl _).cons hsent hhear

theorem reject_allowed {r : Room} (hr : r.sessions.length ≤ 2) (source : Option Id) (r₀ : Room)
    (id : Id) (code message : String) :
    Cut (Allowed source r₀) (fun _ _ => False) r (r.reject fails id code message) :=
  send_allowed fails hr ⟨trivial, trivial⟩ (fun _ _ => rfl)

theorem get_mem {r : Room} {id : Id} {s : Session} (h : r.get id = some s) :
    s.id = id ∧ s.id ∈ r.ids := by
  have hid := List.find?_some h
  exact ⟨of_decide_eq_true hid, List.mem_map_of_mem (List.mem_of_find?_eq_some h)⟩

variable (J : Runtime)

theorem onObject_allowed {r : Room} (hr : r.sessions.length ≤ 2) {id : Id} (hid : id ∈ r.ids)
    (msg : Json.Dict) :
    Cut (Allowed (some id) r) (fun _ _ => False) r (r.onObject fails J id msg) := by
  unfold onObject
  split
  · exact Cut.refl r
  split
  · exact reject_allowed fails hr _ _ _ _ _
  split
  · exact reject_allowed fails hr _ _ _ _ _
  split
  · exact reject_allowed fails hr _ _ _ _ _
  next target htarget =>
  split
  · exact reject_allowed fails hr _ _ _ _ _
  next hother =>
  obtain ⟨name, _, hget⟩ := Option.bind_eq_some_iff.mp htarget
  exact send_allowed fails hr ⟨trivial, rfl, hid, (get_mem hget).2, hother⟩ (fun _ _ => rfl)

theorem onMessage_allowed {r : Room} (hr : r.sessions.length ≤ 2) (id : Id) (now : ℚ)
    (data : Frame) :
    Cut (Allowed (some id) r) (fun _ _ => False) r (r.onMessage fails J id now data) := by
  unfold onMessage
  split
  · exact Cut.refl r
  next session hget =>
  obtain ⟨hsid, hmem⟩ := get_mem hget
  rw [hsid] at hmem
  dsimp only
  refine @Cut.of_put _ _ _ _ (takeToken { session with lastSeen := now } now).1 ?_
  have hput : ((r.put (takeToken { session with lastSeen := now } now).1).sessions.length) ≤ 2 := by
    rw [← ids_length, put_ids, ids_length]
    exact hr
  have hrelayed : Allowed (some id) r =
      Allowed (some id) (r.put (takeToken { session with lastSeen := now } now).1) := by
    funext a
    unfold Allowed Relayed
    rw [put_ids]
  split
  · exact drop_allowed fails hput _ _ _ _ _
  split
  · exact drop_allowed fails hput _ _ _ _ _
  split
  · exact drop_allowed fails hput _ _ _ _ _
  split
  · exact reject_allowed fails hput _ _ _ _ _
  · rw [hrelayed]
    exact onObject_allowed fails J hput ((put_ids r _).symm ▸ hmem) _
  · exact reject_allowed fails hput _ _ _ _ _

theorem alarm_allowed (source : Option Id) (r₀ : Room) (now : ℚ) (r : Room)
    (hr : r.sessions.length ≤ 2) :
    Cut (Allowed source r₀) (fun _ _ => False) r (r.alarm fails now) := by
  unfold alarm
  dsimp only
  generalize r.sessions.filter _ = swept
  induction swept generalizing r with
  | nil => exact Cut.refl r
  | cons session rest ih =>
      have hfirst := drop_allowed fails hr source r₀ session.id CLOSE_IDLE "idle timeout"
      exact (hfirst.trans (ih _ (le_trans hfirst.length hr))).mono (fun _ ha => ha)
        (fun _ _ _ => or_self_iff)

/-! ## A session joins -/

/-- Sessions left, if any, and what was done is so. -/
structure Sub (P : Act → Prop) (r r' : Room) : Prop where
  ids : List.Sublist r'.ids r.ids
  issued : r'.issued = r.issued
  acts : ∃ new, r'.acts = r.acts ++ new ∧ ∀ a ∈ new, P a

theorem Sub.trans {P : Act → Prop} {r r' r'' : Room} (h : Sub P r r') (h' : Sub P r' r'') :
    Sub P r r'' := by
  obtain ⟨new, hacts, hnew⟩ := h.acts
  obtain ⟨new', hacts', hnew'⟩ := h'.acts
  refine ⟨h'.ids.trans h.ids, h'.issued.trans h.issued, new ++ new', ?_,
    fun a ha => (List.mem_append.mp ha).elim (hnew a) (hnew' a)⟩
  rw [hacts', hacts, List.append_assoc]

theorem Sub.length {P : Act → Prop} {r r' : Room} (h : Sub P r r') :
    r'.sessions.length ≤ r.sessions.length := by
  rw [← ids_length, ← ids_length]
  exact h.ids.length_le

theorem Cut.sub {P : Act → Prop} {told : Id → Id → Prop} {r r' : Room} (h : Cut P told r r') :
    Sub P r r' := by
  obtain ⟨new, hacts, hnew, _⟩ := h.acts
  exact ⟨h.ids, h.issued, new, hacts, hnew⟩

theorem send_sub {r : Room} (hr : r.sessions.length ≤ 2) {source : Option Id} {r₀ : Room}
    {dest : Id} {msg : Message} (hsent : Allowed source r₀ (.sent dest msg)) :
    Sub (Allowed source r₀) r (r.send fails dest msg) := by
  unfold send
  by_cases hfail : fails r.tries = true
  · exact ((sendOr_failed_cut fails (drop_cut fails 2 2 (le_refl _)) hr hfail dest msg).1.mono
      (fun _ ha => ha.allowed) (fun _ _ _ => Iff.rfl)).sub
  · rw [sendOr_sent fails (Bool.eq_false_of_not_eq_true hfail)]
    exact ⟨List.Sublist.refl _, rfl, [Act.sent dest msg], rfl,
      fun a ha => by rwa [List.mem_singleton.mp ha]⟩

theorem broadcast_sub {r : Room} (hr : r.sessions.length ≤ 2) {source : Option Id} {r₀ : Room}
    {msg : Message} (hsent : ∀ dest, Allowed source r₀ (.sent dest msg)) (except : Option Id) :
    Sub (Allowed source r₀) r (r.broadcast fails except msg) := by
  unfold broadcast
  generalize r.ids = l
  induction l generalizing r with
  | nil => exact (Cut.refl r).sub
  | cons dest rest ih =>
      show Sub _ r (broadcastLoop fails (drop fails) except msg rest
        (if except = some dest then r else r.send fails dest msg))
      split
      · exact ih hr
      · have hfirst := send_sub fails hr (hsent dest)
        exact hfirst.trans (ih (le_trans hfirst.length hr))

/-- The room a session has entered, before it is told anything. -/
def enter (r : Room) (now : ℚ) : Room :=
  let sessions := r.sessions ++
    [{ id := J.randomUUID r.issued, lastSeen := now, refilledAt := now }]
  { r with
    sessions, issued := r.issued + 1, acts := r.acts ++ [Act.entered (sessions.map Session.id)] }

theorem enter_ids (r : Room) (now : ℚ) : (r.enter J now).ids = r.ids ++ [J.randomUUID r.issued] :=
  List.map_append

theorem join_full {r : Room} (hfull : 2 ≤ r.sessions.length) (now : ℚ) :
    r.join fails J now =
      { r with
        tries := r.tries + 1
        acts := r.acts ++ [Act.turnedAway (!fails r.tries)
          (.error "room-full" "room already has 2 peers") CLOSE_ROOM_FULL "room full"] } :=
  if_pos hfull

theorem join_enter {r : Room} (hroom : r.sessions.length < 2) (now : ℚ) :
    r.join fails J now =
      let id := J.randomUUID r.issued
      ((r.enter J now).send fails id (.welcome id r.ids)).broadcast fails (some id) (.peerJoined id) :=
  if_neg (not_le.mpr hroom)

/-- The `welcome` could not be sent, and the one session that was there is told of the other. -/
def Ghost (r : Room) : Event → Prop
  | .join _ => r.sessions.length = 1 ∧ fails r.tries = true ∧ fails (r.tries + 1) = false ∧
      fails (r.tries + 2) = false
  | _ => False

theorem broadcastLoop_cons (drop : Room → Id → ℕ → String → Room) (except : Option Id)
    (msg : Message) (dest : Id) (rest : List Id) (r : Room) :
    broadcastLoop fails drop except msg (dest :: rest) r =
      broadcastLoop fails drop except msg rest
        (if except = some dest then r else r.sendOr fails drop dest msg) := rfl

/-- A session alone in the room is told of no other, and stays if that can be sent. -/
theorem broadcast_one {r : Room} {p : Id} (hids : r.ids = [p]) {except : Option Id}
    (hexcept : except ≠ some p) (msg : Message) :
    r.broadcast fails except msg = r.send fails p msg := by
  unfold broadcast
  rw [hids, broadcastLoop_cons, if_neg hexcept]
  rfl

theorem send_ok {r : Room} (hok : fails r.tries = false) (dest : Id) (msg : Message) :
    r.send fails dest msg =
      { r with tries := r.tries + 1, acts := r.acts ++ [Act.sent dest msg] } :=
  sendOr_sent fails hok dest msg

theorem send_fail {r : Room} (hr : r.sessions.length ≤ 2) (hfail : fails r.tries = true) (dest : Id)
    (msg : Message) : Cut (Leaves 2) (fun _ _ => False) r (r.send fails dest msg) ∧
      dest ∉ (r.send fails dest msg).ids :=
  sendOr_failed_cut fails (drop_cut fails 2 2 (le_refl _)) hr hfail dest msg

theorem ids_nil_of_not_mem {l : List Id} {p : Id} (hsub : List.Sublist l [p]) (hnot : p ∉ l) :
    l = [] := by
  cases l with
  | nil => rfl
  | cons q l =>
      have hq := hsub.subset List.mem_cons_self
      rw [List.mem_singleton] at hq
      exact absurd (hq ▸ List.mem_cons_self) hnot

theorem truthful_nil {r : Room} (h : r.ids = []) : Truthful r := by
  intro id hid
  rw [h] at hid
  exact absurd hid List.not_mem_nil

/-- The others are told after the `welcome`, whether or not it could be sent. -/
theorem join_sub {r : Room} (hroom : r.sessions.length < 2) (now : ℚ) (source : Option Id)
    (r₀ : Room) : Sub (Allowed source r₀) (r.enter J now) (r.join fails J now) := by
  have hlen : (r.enter J now).sessions.length ≤ 2 := by
    rw [← ids_length, enter_ids, List.length_append, ids_length, List.length_singleton]
    omega
  have hwelcome : Sub (Allowed source r₀) (r.enter J now) ((r.enter J now).send fails
      (J.randomUUID r.issued) (.welcome (J.randomUUID r.issued) r.ids)) :=
    send_sub fails hlen ⟨trivial, trivial⟩
  have hjoined : ∀ dest, Allowed source r₀ (.sent dest (.peerJoined (J.randomUUID r.issued))) :=
    fun _ => ⟨trivial, trivial⟩
  rw [join_enter fails J hroom]
  exact hwelcome.trans (broadcast_sub fails (le_trans hwelcome.length hlen) hjoined _)

/-- A message was sent: nobody left, and it is what was heard last. -/
theorem send_ok_heard {r : Room} (hok : fails r.tries = false) (dest : Id) (msg : Message) :
    (r.send fails dest msg).ids = r.ids ∧ (r.send fails dest msg).tries = r.tries + 1 ∧
      ∀ id, announced (r.send fails dest msg).acts id =
        hear id (announced r.acts id) (.sent dest msg) := by
  rw [send_ok fails hok]
  refine ⟨rfl, rfl, fun id => ?_⟩
  exact List.foldl_append

theorem join_first {r : Room} (hnone : r.ids = []) (now : ℚ) : Truthful (r.join fails J now) := by
  have hroom : r.sessions.length < 2 := by
    rw [← ids_length, hnone]
    exact Nat.zero_lt_two
  have hids : (r.enter J now).ids = [J.randomUUID r.issued] := by
    rw [enter_ids, hnone]
    rfl
  have hlen : (r.enter J now).sessions.length ≤ 2 := by
    rw [← ids_length, hids]
    exact Nat.le_succ 1
  rw [join_enter fails J hroom, hnone]
  dsimp only
  by_cases hfail : fails (r.enter J now).tries = true
  · obtain ⟨hcut, hgone⟩ := send_fail fails hlen hfail (J.randomUUID r.issued)
      (.welcome (J.randomUUID r.issued) [])
    have hempty := ids_nil_of_not_mem (hids ▸ hcut.ids) hgone
    unfold broadcast
    rw [hempty]
    exact truthful_nil hempty
  · obtain ⟨hsame, _, hheard⟩ := send_ok_heard fails (Bool.eq_false_of_not_eq_true hfail)
      (J.randomUUID r.issued) (.welcome (J.randomUUID r.issued) [])
    rw [hids] at hsame
    unfold broadcast
    rw [hsame, broadcastLoop_cons, if_pos rfl]
    intro id hid
    have hid : id ∈ [J.randomUUID r.issued] := hsame ▸ hid
    rw [List.mem_singleton] at hid
    show announced (send fails (r.enter J now) _ _).acts id = (ids (send fails _ _ _)).toFinset.erase id
    rw [hheard, hsame, hid]
    show (if _ = _ then ([] : List Id).toFinset else _) = _
    rw [if_pos rfl]
    simp

section

variable {fails}

theorem broadcast_pair {r : Room} {p N : Id} (hids : r.ids = [p, N]) (hne : N ≠ p) (msg : Message) :
    r.broadcast fails (some N) msg = r.send fails p msg := by
  unfold broadcast
  rw [hids, broadcastLoop_cons, if_neg (fun h => hne (Option.some.inj h)), broadcastLoop_cons,
    if_pos rfl]
  rfl

/-- The `welcome` was sent. -/
theorem joined_welcomed {r : Room} {p N : Id} (hids : r.ids = [p, N]) (hne : N ≠ p)
    (hp : announced r.acts p = ∅) (hN : announced r.acts N = {p}) :
    Truthful (r.broadcast fails (some N) (.peerJoined N)) := by
  have hlen : r.sessions.length ≤ 2 := by
    rw [← ids_length, hids]
    exact le_refl _
  rw [broadcast_pair hids hne]
  by_cases hfail : fails r.tries = true
  · obtain ⟨hcut, hgone⟩ := send_fail fails hlen hfail p (.peerJoined N)
    intro id hid
    have hin : id ∈ [p, N] := hids ▸ hcut.ids.subset hid
    have hidN : id = N := by
      rcases List.mem_cons.mp hin with rfl | hin
      · exact absurd hid hgone
      · exact List.mem_singleton.mp hin
    subst hidN
    obtain ⟨new, hacts, _, hhear⟩ := hcut.acts
    unfold announced at hN ⊢
    rw [hacts, List.foldl_append]
    ext x
    rw [hhear id hid, hN, Finset.mem_singleton, Finset.mem_erase, List.mem_toFinset]
    refine iff_of_false (fun h => hgone ?_) (fun h => ?_)
    · have hstays := h.2.1
      rw [h.1, hids] at hstays
      exact hstays List.mem_cons_self
    · have hx : x ∈ [p, id] := hids ▸ hcut.ids.subset h.2
      rcases List.mem_cons.mp hx with rfl | hx
      · exact hgone h.2
      · exact h.1 (List.mem_singleton.mp hx)
  · obtain ⟨hsame, _, hheard⟩ := send_ok_heard fails (Bool.eq_false_of_not_eq_true hfail) p
      (.peerJoined N)
    intro id hid
    rw [hsame, hids] at hid
    rw [hheard, hsame, hids]
    rcases List.mem_cons.mp hid with rfl | hid
    · show (if id = id then insert N (announced r.acts id) else _) = _
      rw [if_pos rfl, hp]
      ext x
      simp only [Finset.mem_insert, Finset.notMem_empty, or_false, Finset.mem_erase,
        List.mem_toFinset, List.mem_cons, List.not_mem_nil]
      constructor
      · rintro rfl
        exact ⟨hne, .inr rfl⟩
      · rintro ⟨hx, rfl | rfl⟩
        · exact absurd rfl hx
        · rfl
    · rw [List.mem_singleton.mp hid]
      show (if p = N then _ else announced r.acts N) = _
      rw [if_neg (Ne.symm hne), hN]
      ext x
      simp only [Finset.mem_singleton, Finset.mem_erase, List.mem_toFinset, List.mem_cons,
        List.not_mem_nil, or_false]
      constructor
      · rintro rfl
        exact ⟨Ne.symm hne, .inl rfl⟩
      · rintro ⟨hx, rfl | rfl⟩
        · rfl
        · exact absurd rfl hx

/-- A `welcome` that could not be sent: the session leaves, and the one that was there is told
so, before anything else. -/
theorem welcome_failed {r : Room} {p N : Id} (hids : r.ids = [p, N]) (hne : N ≠ p)
    (hfail : fails r.tries = true) (msg : Message) :
    ∃ d : Room, r.send fails N msg = d.send fails p (.peerLeft N) ∧ d.ids = [p] ∧
      d.tries = r.tries + 1 := by
  let failed : Room := { r with tries := r.tries + 1, acts := r.acts ++ [Act.failed N msg] }
  have hmem : N ∈ failed.ids := by
    show N ∈ r.ids
    rw [hids]
    exact List.mem_cons_of_mem _ List.mem_cons_self
  have hdeleted : (failed.delete N CLOSE_INTERNAL_ERROR "send failed").ids = [p] := by
    have hfilter : (failed.delete N CLOSE_INTERNAL_ERROR "send failed").ids =
        r.ids.filter (fun x => x ≠ N) := by
      unfold ids delete
      rw [List.filter_map]
      rfl
    rw [hfilter, hids]
    simp only [ne_eq, decide_not, List.filter_cons, Ne.symm hne, decide_false, Bool.not_false,
      ↓reduceIte, decide_true, Bool.not_true, Bool.false_eq_true, List.filter_nil]
  refine ⟨failed.delete N CLOSE_INTERNAL_ERROR "send failed", ?_, hdeleted, rfl⟩
  unfold send
  rw [sendOr_failed fails hfail]
  show failed.drop fails N CLOSE_INTERNAL_ERROR "send failed" = _
  rw [drop_eq, if_neg (not_not.mpr hmem), broadcast_one fails hdeleted (Option.some_ne_none p).symm]
  rfl

/-- The session that was there is told of the other unless it leaves itself. -/
theorem joined_dropped {r : Room} {p N : Id} (hids : r.ids = [p, N]) (hne : N ≠ p)
    (hfail : fails r.tries = true) (msg : Message) :
    Truthful ((r.send fails N msg).broadcast fails (some N) (.peerJoined N)) ↔
      ¬ (fails (r.tries + 1) = false ∧ fails (r.tries + 2) = false) := by
  obtain ⟨d, hd, hdids, htries⟩ := welcome_failed hids hne hfail msg
  have hlen : d.sessions.length ≤ 2 := by
    rw [← ids_length, hdids]
    exact Nat.le_succ 1
  rw [hd]
  by_cases hleft : fails d.tries = true
  · obtain ⟨hcut, hgone⟩ := send_fail fails hlen hleft p (.peerLeft N)
    have hempty := ids_nil_of_not_mem (hdids ▸ hcut.ids) hgone
    refine iff_of_true ?_ (fun h => ?_)
    · unfold broadcast
      rw [hempty]
      exact truthful_nil hempty
    · rw [htries, h.1] at hleft
      exact Bool.false_ne_true hleft
  · have hleft' := Bool.eq_false_of_not_eq_true hleft
    obtain ⟨hsame, htries', hheard⟩ := send_ok_heard fails hleft' p (.peerLeft N)
    rw [hdids] at hsame
    rw [broadcast_one fails hsame (fun h => hne (Option.some.inj h))]
    have hlen' : (d.send fails p (.peerLeft N)).sessions.length ≤ 2 := by
      rw [← ids_length, hsame]
      exact Nat.le_succ 1
    by_cases hjoined : fails (d.send fails p (.peerLeft N)).tries = true
    · obtain ⟨hcut, hgone⟩ := send_fail fails hlen' hjoined p (.peerJoined N)
      refine iff_of_true (truthful_nil (ids_nil_of_not_mem (hsame ▸ hcut.ids) hgone)) (fun h => ?_)
      rw [htries', htries, h.2] at hjoined
      exact Bool.false_ne_true hjoined
    · have hjoined' := Bool.eq_false_of_not_eq_true hjoined
      obtain ⟨hsame', _, hheard'⟩ := send_ok_heard fails hjoined' p (.peerJoined N)
      refine iff_of_false (fun htrue => ?_) (not_not.mpr ⟨htries ▸ hleft', ?_⟩)
      · have hone := htrue p (by rw [hsame', hsame]; exact List.mem_cons_self)
        rw [hheard', hsame', hsame] at hone
        have hmem : N ∈ hear p (announced (d.send fails p (.peerLeft N)).acts p)
            (.sent p (.peerJoined N)) := by
          show N ∈ (if p = p then insert N _ else _)
          rw [if_pos rfl]
          exact Finset.mem_insert_self _ _
        rw [hone, Finset.mem_erase, List.mem_toFinset, List.mem_singleton] at hmem
        exact hne hmem.2
      · rw [htries', htries] at hjoined'
        exact hjoined'

end

/-- A session joins the one that is there. -/
theorem join_second {r : Room} {p : Id} (hone : r.ids = [p]) (hfresh : J.randomUUID r.issued ≠ p)
    (htrue : Truthful r) (now : ℚ) :
    Truthful (r.join fails J now) ↔ ¬ Ghost fails r (.join now) := by
  have hlen : r.sessions.length = 1 := by
    rw [← ids_length, hone]
    rfl
  have hids : (r.enter J now).ids = [p, J.randomUUID r.issued] := by
    rw [enter_ids, hone]
    rfl
  have hp : announced r.acts p = ∅ := by
    rw [htrue p (hone ▸ List.mem_cons_self), hone]
    simp
  have henter : ∀ id, announced (r.enter J now).acts id = announced r.acts id := fun id =>
    List.foldl_append
  have hp' : announced (r.enter J now).acts p = ∅ := (henter p).trans hp
  rw [join_enter fails J (by omega), hone]
  dsimp only
  by_cases hfail : fails r.tries = true
  · rw [joined_dropped hids hfresh hfail]
    unfold Ghost
    simp only [hlen, hfail, true_and]
    rfl
  · have hok : fails (r.enter J now).tries = false := Bool.eq_false_of_not_eq_true hfail
    obtain ⟨hsame, _, hheard⟩ := send_ok_heard fails hok (J.randomUUID r.issued)
      (.welcome (J.randomUUID r.issued) [p])
    refine iff_of_true (joined_welcomed (hsame.trans hids) hfresh ?_ ?_) (fun h => hfail h.2.1)
    · rw [hheard]
      exact (if_neg hfresh).trans hp'
    · rw [hheard]
      exact (if_pos rfl).trans (by simp)

/-! ## Runs -/

/-- The room has room, and its sessions have identifiers that were given. -/
structure Kept (r : Room) : Prop where
  crowd : r.sessions.length ≤ 2
  given : ∀ id ∈ r.ids, ∃ k < r.issued, id = J.randomUUID k

theorem Sub.kept {P : Act → Prop} {r r' : Room} (h : Sub P r r') (hkept : Kept J r) : Kept J r' where
  crowd := le_trans h.length hkept.crowd
  given id hid := h.issued ▸ hkept.given id (h.ids.subset hid)

theorem Kept.fresh {r : Room} (h : Kept J r) : J.randomUUID r.issued ∉ r.ids := by
  intro hmem
  obtain ⟨k, hk, heq⟩ := h.given _ hmem
  exact absurd (J.randomUUID.injective heq) (ne_of_gt hk)

theorem enter_kept {r : Room} (h : Kept J r) (hroom : r.sessions.length < 2) (now : ℚ) :
    Kept J (r.enter J now) where
  crowd := by
    rw [← ids_length, enter_ids, List.length_append, ids_length, List.length_singleton]
    omega
  given id hid := by
    rw [enter_ids, List.mem_append, List.mem_singleton] at hid
    rcases hid with hid | rfl
    · obtain ⟨k, hk, heq⟩ := h.given id hid
      exact ⟨k, Nat.lt_succ_of_lt hk, heq⟩
    · exact ⟨r.issued, Nat.lt_succ_self _, rfl⟩

/-- The events in which no session joins. -/
theorem step_cut {r : Room} (hr : r.sessions.length ≤ 2) {e : Event}
    (hjoin : ∀ now, e ≠ .join now) :
    Cut (Allowed e.source r) (fun _ _ => False) r (r.step fails J e) := by
  cases e with
  | join now => exact absurd rfl (hjoin now)
  | message id now data => exact onMessage_allowed fails J hr id now data
  | close id => exact drop_allowed fails hr _ r id _ _
  | error id => exact drop_allowed fails hr _ r id _ _
  | alarm now => exact alarm_allowed fails _ r now r hr

/-- What a step keeps, and what it does. -/
theorem step_kept {r : Room} (h : Kept J r) (e : Event) : Kept J (r.step fails J e) ∧
    ∃ new, (r.step fails J e).acts = r.acts ++ new ∧ ∀ a ∈ new, Allowed e.source r a := by
  by_cases hjoin : ∀ now, e ≠ .join now
  · have hcut := step_cut fails J h.crowd hjoin
    exact ⟨hcut.sub.kept J h, hcut.sub.acts⟩
  push Not at hjoin
  obtain ⟨now, rfl⟩ := hjoin
  show Kept J (r.join fails J now) ∧ ∃ new, (r.join fails J now).acts = _ ∧ _
  rcases Nat.lt_or_ge r.sessions.length 2 with hroom | hfull
  · have hsub := join_sub fails J hroom now none r
    obtain ⟨new, hacts, hnew⟩ := hsub.acts
    refine ⟨hsub.kept J (enter_kept J h hroom now), Act.entered (r.enter J now).ids :: new, ?_,
      fun a ha => ?_⟩
    · rw [hacts]
      exact List.append_assoc _ [_] _
    · rcases List.mem_cons.mp ha with rfl | ha
      · refine ⟨?_, trivial⟩
        show (r.enter J now).ids.length ≤ 2
        rw [ids_length]
        exact (enter_kept J h hroom now).crowd
      · exact hnew a ha
  · rw [join_full fails J hfull]
    exact ⟨⟨h.crowd, h.given⟩, _, rfl, fun a ha => by
      rw [List.mem_singleton.mp ha]
      exact ⟨trivial, trivial⟩⟩

/-- A step of a truthful room makes no ghost if and only if it leaves the room truthful. -/
theorem step_truthful {r : Room} (h : Kept J r) (htrue : Truthful r) (e : Event) :
    Truthful (r.step fails J e) ↔ ¬ Ghost fails r e := by
  by_cases hjoin : ∀ now, e ≠ .join now
  · refine iff_of_true ((step_cut fails J h.crowd hjoin).keeps_truthful htrue) (fun hghost => ?_)
    cases e with
    | join now => exact hjoin now rfl
    | message id now data => exact hghost
    | close id => exact hghost
    | error id => exact hghost
    | alarm now => exact hghost
  push Not at hjoin
  obtain ⟨now, rfl⟩ := hjoin
  show Truthful (r.join fails J now) ↔ _
  rcases Nat.lt_or_ge r.sessions.length 2 with hroom | hfull
  · cases hids : r.ids with
    | nil =>
        refine iff_of_true (join_first fails J hids now) (fun hghost => ?_)
        have hlen := hghost.1
        rw [← ids_length, hids] at hlen
        exact absurd hlen Nat.zero_ne_one
    | cons p rest =>
        have hone : r.ids = [p] := by
          rw [hids]
          rw [← ids_length, hids, List.length_cons] at hroom
          rw [List.length_eq_zero_iff.mp (by omega : rest.length = 0)]
        have hfresh : J.randomUUID r.issued ≠ p := fun heq => by
          have hnot := Kept.fresh J h
          rw [heq, hone] at hnot
          exact hnot List.mem_cons_self
        exact join_second fails J hone hfresh htrue now
  · refine iff_of_true ?_ (fun hghost => by have := hghost.1; omega)
    rw [join_full fails J hfull]
    intro id hid
    have hsame := htrue id hid
    unfold announced at hsame ⊢
    rw [List.foldl_append]
    exact hsame

theorem run_append (done : List Event) (e : Event) :
    run fails J (done ++ [e]) = (run fails J done).step fails J e := by
  unfold run
  rw [List.foldl_append]
  rfl

theorem run_kept (events : List Event) : Kept J (run fails J events) := by
  induction events using List.reverseRecOn with
  | nil => exact ⟨Nat.zero_le 2, fun id hid => absurd hid List.not_mem_nil⟩
  | append_singleton done e ih =>
      rw [run_append]
      exact (step_kept fails J ih e).1

/-- What the room says in a run is so: it never has more than two sessions, a message relayed
goes from the session that sent it to another, and after each event those still in the room were
told of exactly the others. -/
structure TellsTruth (events : List Event) : Prop where
  crowd : ∀ a ∈ (run fails J events).acts, Crowd a
  relayed : ∀ done e new, done ++ [e] <+: events →
    (run fails J (done ++ [e])).acts = (run fails J done).acts ++ new →
      ∀ a ∈ new, Relayed (Event.source e) (run fails J done) a
  announced : ∀ done, done <+: events → Truthful (run fails J done)

theorem run_crowd (events : List Event) : ∀ a ∈ (run fails J events).acts, Crowd a := by
  induction events using List.reverseRecOn with
  | nil => exact fun a ha => absurd ha List.not_mem_nil
  | append_singleton done e ih =>
      obtain ⟨new, hacts, hnew⟩ := (step_kept fails J (run_kept fails J done) e).2
      rw [run_append, hacts]
      intro a ha
      rcases List.mem_append.mp ha with ha | ha
      · exact ih a ha
      · exact (hnew a ha).1

theorem tells_iff (events : List Event) : TellsTruth fails J events ↔
    ∀ done e, done ++ [e] <+: events → ¬ Ghost fails (run fails J done) e := by
  constructor
  · intro h done e hpre
    have hdone := h.announced done ((List.prefix_append done [e]).trans hpre)
    rw [← step_truthful fails J (run_kept fails J done) hdone e, ← run_append]
    exact h.announced _ hpre
  · intro h
    refine ⟨run_crowd fails J events, fun done e new hpre hacts a ha => ?_, fun done => ?_⟩
    · obtain ⟨new', hacts', hnew⟩ := (step_kept fails J (run_kept fails J done) e).2
      rw [run_append, hacts'] at hacts
      rw [← List.append_cancel_left hacts] at ha
      exact (hnew a ha).2
    · induction done using List.reverseRecOn with
      | nil => exact fun _ => truthful_nil rfl
      | append_singleton done e ih =>
          intro hpre
          have hdone := ih ((List.prefix_append done [e]).trans hpre)
          rw [run_append]
          exact (step_truthful fails J (run_kept fails J done) hdone e).mpr (h done e hpre)

/-- A runtime whose identifiers are numbered. -/
def numbered : Runtime where
  parse _ := none
  isInteger _ := false
  randomUUID := ⟨fun n => [n], fun _ _ h => List.singleton_injective h⟩

/-- The second `welcome` cannot be sent: the first session hears that the second has left, and
then that it has joined. -/
theorem ghost_joined : ¬ ∀ (fails : ℕ → Bool) (J : Runtime) (events : List Event),
    TellsTruth fails J events := by
  intro hall
  let fails : ℕ → Bool := fun n => decide (n = 1)
  have h := hall fails numbered [.join 0, .join 0]
  have hone := h.announced [.join 0] ⟨[.join 0], rfl⟩
  have htwo := h.announced [.join 0, .join 0] ⟨[], rfl⟩
  refine (step_truthful fails numbered (run_kept fails numbered [.join 0]) hone (.join 0)).mp htwo ?_
  exact ⟨rfl, rfl, rfl, rfl⟩

end Secdogie.Signaling.Room
