/-
# `Secdogie.Citadel.Replication` — anti-entropy between journals

Nodes offer what they have and are sent what they lack.  The messages are
lost, repeated and reordered, and anybody may send any others: only what the
nodes signed is safe, since no one else can sign for them.

`copies_agree`: in every run, a node's copy of an author's events is a prefix
of the author's own.  `exchange_completes`: an exchange that comes to its end
brings over all that the peer had when it answered, whatever happened in
between.  `star_converges`: when every node has synced twice with a hub, all
of them read back the same events in the same order.
-/
import Secdogie.Citadel.Journal
import Mathlib.Logic.Relation

namespace Secdogie.Citadel

open Secdogie.Graph Secdogie.Identity

/-! ## Messages -/

inductive Message (F : Type) where
  | journal_have (heads : OrderedDict String ℤ) (reply : Bool)
  | journal_events (events : List (Event F))
  /-- of another kind, or none at all -/
  | other

section

variable {F : Type}

namespace Journal

/-- What this journal holds that a peer with these heads lacks. -/
def events_since (j : Journal F) (remote_heads : OrderedDict String ℤ) : List (Event F) :=
  j.heads.items.flatMap fun (author, local_seq) =>
    let known := (remote_heads.get author).getD 0
    if known < local_seq then j.since author known else []

def have_message (j : Journal F) (reply : Bool) : Message F := .journal_have j.heads reply

def respond_to_have (j : Journal F) (heads : OrderedDict String ℤ) : Message F :=
  .journal_events (j.events_since heads)

/-- What events are read back by. -/
def order [LinearOrder F] (p : Payload F) : ℤ ×ₗ F ×ₗ String ×ₗ ℤ :=
  toLex (p.lamport, toLex (p.ts, toLex (p.author, p.seq)))

/-- `events()`: `ORDER BY lamport, ts, author, seq` -/
def events [LinearOrder F] (j : Journal F) : List (Event F) :=
  j.rows.insertionSort fun a b => order a.toPayload ≤ order b.toPayload

/-- What the journal holds of an author, without the signatures. -/
def history (j : Journal F) (author : String) : List (Payload F) :=
  (j.since author 0).map (·.toPayload)

theorem history_reopen (j : Journal F) (author : String) :
    j.reopen.history author = j.history author := rfl

variable [FloatCodec F] (C : Crypto)

/-- `on_message`: how many events were merged, `none` when it raises, and what
is sent back. -/
def on_message (trust : String → Bool) (j : Journal F) :
    Message F → Journal F × Option ℕ × List (Message F)
  | .journal_have heads reply =>
      (j, some 0, j.respond_to_have heads :: if reply then [] else [j.have_message true])
  | .journal_events events =>
      let (j, count) := merge C trust events j
      (j, count, [])
  | .other => (j, some 0, [])

/-- The events that a message carries. -/
def eventsOf : Message F → List (Event F)
  | .journal_events events => events
  | _ => []

/-- `sync_round`, with what each of the two trusts. -/
def sync_round (trustA trustB : String → Bool) (a b : Journal F) : Journal F × Journal F :=
  let to_a := b.events_since a.heads
  let to_b := a.events_since b.heads
  ((merge C trustA to_a a).1, (merge C trustB to_b b).1)

end Journal

end

/-! ## What a sound journal offers -/

namespace Journal

section

variable {F : Type} [FloatCodec F] {C : Crypto} {j : Journal F} {e : Event F} {author : String}
  {trust : String → Bool}

theorem Sound.history_eq (h : Sound C j) (author : String) :
    j.history author = (j.log author).map (·.toPayload) := by
  have hsince := h.since_eq author 0
  rw [Nat.cast_zero, List.drop_zero] at hsince
  rw [history, hsince]

theorem Sound.length_history (h : Sound C j) (author : String) :
    (j.history author).length = (j.log author).length := by
  rw [h.history_eq, List.length_map]

theorem Sound.history_stored (h : Sound C j) (h' : Sound C (Journal.stored j e)) (author : String) :
    (Journal.stored j e).history author =
      if e.author = author then j.history author ++ [e.toPayload] else j.history author := by
  rw [h'.history_eq, h.history_eq, log_stored]
  split_ifs
  · rw [List.map_append, List.map_singleton]
  · rfl

theorem Sound.heads_get (h : Sound C j) (author : String) :
    (j.heads.get author).getD 0 = ((j.log author).length : ℤ) := by
  have hhead := congrArg Prod.fst (h.head_eq author)
  by_cases hmem : author ∈ j.authors
  · have hget : j.heads.get author = some (j.head author).1 :=
      OrderedDict.get_eq_some_iff.mpr (List.mem_map_of_mem hmem)
    rw [hget]
    exact hhead
  · have hget : j.heads.get author = none := by
      rw [OrderedDict.get_eq_none_iff, OrderedDict.keys, heads, List.map_map]
      intro hkey
      obtain ⟨a, ha, rfl⟩ := List.mem_map.mp hkey
      exact hmem ha
    have hlog : j.log author = [] := by
      refine List.eq_nil_iff_forall_not_mem.mpr fun e he => hmem ?_
      obtain ⟨hrow, rfl⟩ := mem_log.mp he
      exact List.mem_dedup.mpr (List.mem_map_of_mem hrow)
    rw [hget, hlog]
    rfl

/-- A peer is sent the rows after those it knows. -/
theorem Sound.mem_events_since (h : Sound C j) {remote_heads : OrderedDict String ℤ} :
    e ∈ j.events_since remote_heads ↔ e ∈ j.rows ∧ (remote_heads.get e.author).getD 0 < e.seq := by
  rw [events_since, List.mem_flatMap]
  constructor
  · rintro ⟨⟨author, local_seq⟩, -, he⟩
    dsimp only at he
    split_ifs at he with hlt
    · rw [since, List.mem_filter, decide_eq_true_eq, h.select_eq, mem_log] at he
      obtain ⟨⟨hrow, rfl⟩, hknown⟩ := he
      exact ⟨hrow, hknown⟩
    · cases he
  · rintro ⟨hrow, hknown⟩
    have hmem : e ∈ j.log e.author := mem_log.mpr ⟨hrow, rfl⟩
    have hbound := ((h.chained e.author).bounds e hmem).2
    have hhead := congrArg Prod.fst (h.head_eq e.author)
    refine ⟨(e.author, (j.head e.author).1), ?_, ?_⟩
    · exact List.mem_map_of_mem (List.mem_dedup.mpr (List.mem_map_of_mem hrow))
    · dsimp only at hhead ⊢
      rw [hhead, if_pos (by omega), since, List.mem_filter, decide_eq_true_eq, h.select_eq]
      exact ⟨hmem, hknown⟩

theorem Chained.getElem_of_mem : ∀ {n : ℕ} {prev : String} {l : List (Event F)},
    Chained C author n prev l → e ∈ l → ∀ k : ℕ, e.seq = n + k + 1 → l[k]? = some e
  | n, prev, a :: l, h, he, k, hk => by
      have ha := h.2.2.1.seq
      rcases List.mem_cons.mp he with rfl | he
      · obtain rfl : k = 0 := by omega
        rfl
      · have hbound := (h.2.2.2.bounds e he).1
        obtain ⟨i, rfl⟩ : ∃ i, k = i + 1 := ⟨k - 1, by omega⟩
        rw [List.getElem?_cons_succ]
        exact h.2.2.2.getElem_of_mem he i (by push_cast at hk ⊢; omega)

/-- Merging only adds to what the journal holds of an author. -/
theorem Sound.history_merge (h : Sound C j) (trust : String → Bool) (es : List (Event F))
    (author : String) : j.history author <+: (Journal.merge C trust es j).1.history author := by
  refine (h.merge_induction (P := fun j' => j.history author <+: j'.history author)
    (fun j' hj hP e _ _ hj' => ?_) List.prefix_rfl).2
  rw [hj.history_stored hj']
  split_ifs
  · exact hP.trans (List.prefix_append _ _)
  · exact hP

theorem Sound.history_merge_of_not_mem (h : Sound C j) (trust : String → Bool) {es : List (Event F)}
    (hes : ∀ e ∈ es, e.author ≠ author) :
    (Journal.merge C trust es j).1.history author = j.history author := by
  refine (h.merge_induction (P := fun j' => j'.history author = j.history author)
    (fun j' hj hP e he _ hj' => ?_) rfl).2
  rw [hj.history_stored hj', if_neg (hes e he)]
  exact hP

theorem Sound.history_append (h : Sound C j) (identity : Signer C) (kind : String) (body : Value F)
    (now : F) (author : String) :
    j.history author <+: (Journal.append C identity kind body now j).1.history author ∧
      (identity.did ≠ author → (Journal.append C identity kind body now j).1.history author = j.history author) := by
  have h' := h.append identity kind body now
  rw [h'.history_eq, h.history_eq, append_eq]
  split_ifs
  · rw [log_concat]
    split_ifs with hauthor
    · rw [List.map_append]
      exact ⟨List.prefix_append _ _, fun hne => absurd hauthor hne⟩
    · exact ⟨List.prefix_rfl, fun _ => rfl⟩
  · exact ⟨List.prefix_rfl, fun _ => rfl⟩

/-- Whatever the message, what it does to the journal is a merge of the events
in it. -/
theorem on_message_journal (trust : String → Bool) (j : Journal F) (message : Message F) :
    (on_message C trust j message).1 = (merge C trust (eventsOf message) j).1 := by
  cases message with
  | journal_have heads reply => rfl
  | journal_events events => rfl
  | other => rfl

/-- What is sent back is in the table. -/
theorem Sound.mem_replies (h : Sound C j) {message reply : Message F}
    (hreply : reply ∈ (on_message C trust j message).2.2) (he : e ∈ eventsOf reply) : e ∈ j.rows := by
  cases message with
  | journal_have heads again =>
      rcases List.mem_cons.mp hreply with rfl | hreply
      · exact (h.mem_events_since.mp he).1
      · split_ifs at hreply
        · cases hreply
        · rw [List.mem_singleton.mp hreply] at he
          cases he
  | journal_events events => cases hreply
  | other => cases hreply

/-- A batch that the columns hold does not raise. -/
theorem Sound.merge_ne_none (h : Sound C j) (trust : String → Bool) {es : List (Event F)}
    (hfits : ∀ e ∈ es, int64 e.seq = true ∧ int64 e.lamport = true) : (Journal.merge C trust es j).2 ≠ none := by
  have hall : ∀ {l : List (Event F)} {j : Journal F}, Sound C j → l ⊆ es →
      (accept_all C trust j l).2 ≠ none := by
    intro l
    induction l with
    | nil =>
        intro j _ _ hnone
        cases hnone
    | cons e l ih =>
        intro j h hl hnone
        have hrest : l ⊆ es := fun x hx => hl (List.mem_cons_of_mem _ hx)
        rw [accept_all] at hnone
        rcases h.accept_cases trust e with ⟨-, hacc⟩ | ⟨-, hbad, -⟩ | ⟨hadm, hgood, hacc⟩
        · rw [hacc] at hnone
          exact ih h hrest (Option.map_eq_none_iff.mp hnone)
        · exact hbad (hfits e (hl List.mem_cons_self))
        · rw [hacc] at hnone
          exact ih (h.stored hadm hgood) hrest (Option.map_eq_none_iff.mp hnone)
  exact hall h fun e he => (List.mem_insertionSort _).mp he

/-- Without its signatures, a journal has no row twice. -/
theorem Sound.nodup_payloads (h : Sound C j) : (j.rows.map (·.toPayload)).Nodup := by
  have hfilter : ∀ author, ((j.log author).map (·.toPayload)).Nodup := by
    intro author
    refine List.Nodup.map_on (fun a ha b hb hab => ?_) ?_
    · exact (h.chained author).seq_inj a ha b hb (congrArg Payload.seq hab)
    · exact (h.chained author).nodup
  have hall : ∀ rows : List (Event F),
      (∀ author, ((rows.filter fun e => decide (e.author = author)).map (·.toPayload)).Nodup) →
      (rows.map (·.toPayload)).Nodup := by
    intro rows
    induction rows with
    | nil => exact fun _ => List.nodup_nil
    | cons e rows ih =>
        intro hrows
        rw [List.map_cons, List.nodup_cons]
        constructor
        · intro hmem
          obtain ⟨e', he', heq⟩ := List.mem_map.mp hmem
          have hauthor : e'.author = e.author := congrArg Payload.author heq
          have hnodup := hrows e.author
          rw [List.filter_cons, decide_eq_true rfl, if_pos rfl, List.map_cons, List.nodup_cons] at hnodup
          refine hnodup.1 (List.mem_map.mpr ⟨e', ?_, heq⟩)
          exact List.mem_filter.mpr ⟨he', decide_eq_true hauthor⟩
        · refine ih fun author => (hrows author).sublist ?_
          exact ((List.sublist_cons_self e rows).filter _).map _
  exact hall j.rows hfilter

theorem Sound.mem_payloads (h : Sound C j) {p : Payload F} :
    p ∈ j.rows.map (·.toPayload) ↔ p ∈ j.history p.author := by
  rw [h.history_eq, List.mem_map, List.mem_map]
  constructor
  · rintro ⟨e, he, rfl⟩
    exact ⟨e, mem_log.mpr ⟨he, rfl⟩, rfl⟩
  · rintro ⟨e, he, heq⟩
    exact ⟨e, (mem_log.mp he).1, heq⟩

/-- An event is known by its author and its number. -/
theorem Sound.payload_inj (h : Sound C j) {p q : Payload F}
    (hp : p ∈ j.rows.map (·.toPayload)) (hq : q ∈ j.rows.map (·.toPayload))
    (hauthor : p.author = q.author) (hseq : p.seq = q.seq) : p = q := by
  rw [h.mem_payloads, h.history_eq] at hp hq
  obtain ⟨e, he, rfl⟩ := List.mem_map.mp hp
  obtain ⟨e', he', rfl⟩ := List.mem_map.mp hq
  have hlog : e' ∈ j.log e.author := by
    rw [hauthor]
    exact he'
  rw [(h.chained e.author).seq_inj e he e' hlog hseq]

theorem mem_events [LinearOrder F] {p : Payload F} :
    p ∈ j.events.map (·.toPayload) ↔ p ∈ j.rows.map (·.toPayload) :=
  ((List.perm_insertionSort _ j.rows).map _).mem_iff

/-- Journals that hold the same of every author read back the same events, in
the same order. -/
theorem Sound.events_eq [LinearOrder F] {j' : Journal F} (h : Sound C j) (h' : Sound C j')
    (heq : ∀ author, j.history author = j'.history author) :
    j.events.map (·.toPayload) = j'.events.map (·.toPayload) := by
  have hsort : ∀ j : Journal F, j.events.map (·.toPayload) =
      (j.rows.map (·.toPayload)).insertionSort fun p q => order p ≤ order q := fun j =>
    List.map_insertionSort _ _ _ _ fun _ _ _ _ => Iff.rfl
  rw [hsort, hsort]
  refine insertionSort_eq_of_perm ?_ fun p hp q hq hpq => ?_
  · refine (List.perm_ext_iff_of_nodup h.nodup_payloads h'.nodup_payloads).mpr fun p => ?_
    rw [h.mem_payloads, h'.mem_payloads, heq]
  · have hplace := congrArg (fun k => (ofLex (ofLex (ofLex k).2).2)) hpq
    obtain ⟨hauthor, hseq⟩ := Prod.mk.inj hplace
    exact h.payload_inj hp hq hauthor hseq

theorem Chained.of_append : ∀ {n : ℕ} {prev : String} {l r : List (Event F)},
    Chained C author n prev (l ++ r) → Chained C author n prev l
  | _, _, [], _, _ => trivial
  | _, _, _ :: _, _, h => ⟨h.1, h.2.1, h.2.2.1, h.2.2.2.of_append⟩

/-- The hash that the next event has to name is that of the last payload. -/
theorem Chained.lastHash_eq {prev : String} {l : List (Event F)} {n : ℕ} (h : Chained C author n prev l) :
    lastHash prev l = ((l.map (·.toPayload)).getLast?.map (entry_hash C)).getD prev := by
  rcases List.eq_nil_or_concat l with rfl | ⟨m, e, rfl⟩
  · rfl
  · rw [List.concat_eq_append] at h ⊢
    rw [lastHash_concat, List.map_append, List.map_singleton, List.getLast?_concat]
    exact (chained_concat.mp h).2.2.1.hash

/-- A journal that merges what it lacks of another has all of it, if both were
copies of one history. -/
theorem Sound.catch_up {j' : Journal F} (h : Sound C j) (h' : Sound C j') {t : List (Payload F)}
    {remote_heads : OrderedDict String ℤ} (htrust : trust author = true)
    (hknown : (remote_heads.get author).getD 0 ≤ (j.log author).length)
    (hmerged : (Journal.merge C trust (j'.events_since remote_heads) j).1.history author <+: t)
    (hown : j'.history author <+: t) :
    j'.history author <+: (Journal.merge C trust (j'.events_since remote_heads) j).1.history author := by
  have hok : (Journal.merge C trust (j'.events_since remote_heads) j).2 ≠ none :=
    h.merge_ne_none trust fun e he => h'.fits e (h'.mem_events_since.mp he).1
  have hrefuses := h.refuses_all
    (List.pairwise_insertionSort (fun a b => place a ≤ place b) (j'.events_since remote_heads)) hok
  have hsound := h.merge trust (j'.events_since remote_heads)
  have hmono := (h.history_merge trust (j'.events_since remote_heads) author).length_le
  rw [h.length_history, hsound.length_history] at hmono
  refine List.prefix_of_prefix_length_le hown hmerged (Nat.le_of_not_lt fun hlt => ?_)
  -- else the first event that is missing was in the batch, and it would be admissible
  rw [hsound.length_history, h'.length_history] at hlt
  have hchain := h'.chained author
  obtain ⟨l, e, r, hsplit, hlen⟩ : ∃ l e r, j'.log author = l ++ e :: r ∧
      l.length = ((Journal.merge C trust (j'.events_since remote_heads) j).1.log author).length :=
    ⟨_, _, _, (List.take_append_drop _ _).symm.trans (congrArg _ (List.drop_eq_getElem_cons hlt)),
      List.length_take_of_le hlt.le⟩
  have hprefix : Chained C author 0 GENESIS (l ++ [e]) := by
    refine Chained.of_append (r := r) ?_
    rw [List.append_assoc, List.singleton_append, ← hsplit]
    exact hchain
  obtain ⟨hl, hauthor, hgenuine, hfollows⟩ := chained_concat.mp hprefix
  have hrow : e ∈ j'.rows := (mem_log.mp (hsplit ▸ by simp : e ∈ j'.log author)).1
  have hseq := hfollows.seq
  have hbatch : e ∈ j'.events_since remote_heads := by
    refine h'.mem_events_since.mpr ⟨hrow, ?_⟩
    rw [hauthor]
    push_cast at hseq
    omega
  refine hrefuses e ((List.mem_insertionSort _).mpr hbatch) ⟨hauthor ▸ htrust, hgenuine, ?_⟩
  have hpayloads : l.map (·.toPayload) =
      ((Journal.merge C trust (j'.events_since remote_heads) j).1.log author).map (·.toPayload) := by
    rw [hsound.history_eq] at hmerged
    rw [h'.history_eq, hsplit, List.map_append] at hown
    refine (List.prefix_of_prefix_length_le ((List.prefix_append _ _).trans hown) hmerged ?_).eq_of_length ?_
    · rw [List.length_map, List.length_map, hlen]
    · rw [List.length_map, List.length_map, hlen]
  rw [Nat.zero_add, hlen, hl.lastHash_eq, hpayloads, ← (hsound.chained author).lastHash_eq] at hfollows
  rw [hauthor]
  exact hfollows

end

end Journal

/-! ## The mesh -/

structure Packet (N F : Type) where
  src : N
  dst : N
  message : Message F

/-- The nodes' journals, and every packet that was ever sent. -/
structure Mesh (N F : Type) where
  journal : N → Journal F
  sent : List (Packet N F)

inductive Act (N F : Type) where
  | append (n : N) (kind : String) (body : Value F) (now : F)
  | reopen (n : N)
  | initiate (src dst : N)
  /-- the `k`th packet arrives, for the first time or again -/
  | deliver (k : ℕ) (trust : String → Bool)
  /-- a stranger sends a packet -/
  | inject (packet : Packet N F)

namespace Mesh

open Journal

section

variable {N F : Type} [DecidableEq N] [FloatCodec F] {C : Crypto} (identity : N → Signer C)

def start : Mesh N F := ⟨fun _ => Journal.empty, []⟩

def step (w : Mesh N F) : Act N F → Mesh N F
  | .append n kind body now =>
      { w with journal := Function.update w.journal n (append C (identity n) kind body now (w.journal n)).1 }
  | .reopen n => { w with journal := Function.update w.journal n (w.journal n).reopen }
  | .initiate src dst => { w with sent := w.sent ++ [⟨src, dst, (w.journal src).have_message false⟩] }
  | .deliver k trust =>
      match w.sent[k]? with
      | none => w
      | some packet =>
          let handled := on_message C trust (w.journal packet.dst) packet.message
          ⟨Function.update w.journal packet.dst handled.1,
            w.sent ++ handled.2.2.map (⟨packet.dst, packet.src, ·⟩)⟩
  | .inject packet => { w with sent := w.sent ++ [packet] }

/-- Events that no one made up: those of them that are validly signed by a
node are events that the node signed. -/
def Unforged (w : Mesh N F) (events : List (Event F)) : Prop :=
  ∀ e ∈ events, Genuine C e → ∀ m, e.author = (identity m).did →
    e.toPayload ∈ (w.journal m).history (identity m).did

/-- Signatures cannot be forged. -/
def Allowed (w : Mesh N F) : Act N F → Prop
  | .inject packet => w.Unforged identity (eventsOf packet.message)
  | _ => True

/-- One step of the mesh. -/
def Next (w w' : Mesh N F) : Prop := ∃ a, w.Allowed identity a ∧ w' = w.step identity a

/-- What steps lead to. -/
def Leads : Mesh N F → Mesh N F → Prop := Relation.ReflTransGen (Next identity)

/-- What can be said of every state of the mesh: the journals are sound,
copies are prefixes, and what is under way was not forged. -/
structure Safe (w : Mesh N F) : Prop where
  sound : ∀ n, Sound C (w.journal n)
  copies : ∀ n m, (w.journal n).history (identity m).did <+: (w.journal m).history (identity m).did
  unforged : ∀ p ∈ w.sent, w.Unforged identity (eventsOf p.message)

/-! ## Copies are prefixes -/

variable {identity} {w w' : Mesh N F} {a : Act N F}

theorem prefix_concat {α : Type} {l t : List α} {x : α} (h : l <+: t) (hx : t[l.length]? = some x) :
    l ++ [x] <+: t := by
  obtain ⟨r, rfl⟩ := h
  rw [List.getElem?_append_right le_rfl, Nat.sub_self] at hx
  cases r with
  | nil => cases hx
  | cons y r =>
      rw [List.getElem?_cons_zero] at hx
      rw [← Option.some.inj hx]
      exact ⟨r, by rw [List.append_assoc, List.singleton_append]⟩

omit [DecidableEq N] in
theorem Unforged.mono {events : List (Event F)} (h : w.Unforged identity events)
    (hmono : ∀ n author, (w.journal n).history author <+: (w'.journal n).history author) :
    w'.Unforged identity events :=
  fun e he hgenuine m hm => (hmono m _).subset (h e he hgenuine m hm)

/-- The journal that a step leaves a node with. -/
theorem journal_step (w : Mesh N F) (a : Act N F) (n : N) :
    (w.step identity a).journal n = w.journal n ∨
    (∃ kind body now, a = .append n kind body now ∧
      (w.step identity a).journal n = (append C (identity n) kind body now (w.journal n)).1) ∨
    (a = .reopen n ∧ (w.step identity a).journal n = (w.journal n).reopen) ∨
    (∃ k trust p, a = .deliver k trust ∧ p ∈ w.sent ∧ p.dst = n ∧
      (w.step identity a).journal n = (merge C trust (eventsOf p.message) (w.journal n)).1) := by
  cases a with
  | append m kind body now =>
      by_cases hn : n = m
      · subst hn
        exact .inr (.inl ⟨kind, body, now, rfl, Function.update_self ..⟩)
      · exact .inl (Function.update_of_ne hn ..)
  | reopen m =>
      by_cases hn : n = m
      · subst hn
        exact .inr (.inr (.inl ⟨rfl, Function.update_self ..⟩))
      · exact .inl (Function.update_of_ne hn ..)
  | initiate src dst => exact .inl rfl
  | deliver k trust =>
      rw [step]
      cases hk : w.sent[k]? with
      | none => exact .inl rfl
      | some p =>
          dsimp only
          by_cases hn : n = p.dst
          · subst hn
            refine .inr (.inr (.inr ⟨k, trust, p, rfl, List.mem_of_getElem? hk, rfl, ?_⟩))
            rw [Function.update_self, on_message_journal]
          · exact .inl (Function.update_of_ne hn ..)
  | inject packet => exact .inl rfl

theorem Safe.sound_step (h : Safe identity w) (a : Act N F) (n : N) :
    Sound C ((w.step identity a).journal n) := by
  have hn := h.sound n
  rcases journal_step w a n with hj | ⟨kind, body, now, -, hj⟩ | ⟨-, hj⟩ | ⟨k, trust, p, -, -, -, hj⟩
  · rw [hj]; exact hn
  · rw [hj]; exact hn.append ..
  · rw [hj]; exact hn.reopen
  · rw [hj]; exact hn.merge ..

/-- A node forgets nothing. -/
theorem Safe.history_step (h : Safe identity w) (a : Act N F) (n : N) (author : String) :
    (w.journal n).history author <+: ((w.step identity a).journal n).history author := by
  have hn := h.sound n
  rcases journal_step w a n with hj | ⟨kind, body, now, -, hj⟩ | ⟨-, hj⟩ | ⟨k, trust, p, -, -, -, hj⟩
  · rw [hj]
  · rw [hj]; exact (hn.history_append ..).1
  · rw [hj, history_reopen]
  · rw [hj]; exact hn.history_merge ..

omit [DecidableEq N] in
/-- Merging what was not forged keeps the copy a prefix. -/
theorem Safe.copy_merge (h : Safe identity w) {n m : N} {es : List (Event F)}
    (hes : w.Unforged identity es) (trust : String → Bool) :
    (merge C trust es (w.journal n)).1.history (identity m).did <+:
      (w.journal m).history (identity m).did := by
  refine ((h.sound n).merge_induction
    (P := fun j => j.history (identity m).did <+: (w.journal m).history (identity m).did)
    (fun j hj hP e he hadm hj' => ?_) (h.copies n m)).2
  rw [hj.history_stored hj']
  split_ifs with hauthor
  · have hpayload := hes e he hadm.genuine m hauthor
    rw [(h.sound m).history_eq, List.mem_map] at hpayload
    obtain ⟨own, hown, hpayload⟩ := hpayload
    have hseq : own.seq = (0 : ℕ) + (j.log e.author).length + 1 := by
      have hseq := hadm.follows.seq
      have heq : own.seq = e.seq := congrArg Payload.seq hpayload
      rw [heq, hseq]
      push_cast
      omega
    refine prefix_concat hP ?_
    rw [hj.length_history, ← hauthor, (h.sound m).history_eq, List.getElem?_map, hauthor,
      ((h.sound m).chained _).getElem_of_mem hown _ (hauthor ▸ hseq)]
    exact congrArg some hpayload
  · exact hP

/-- No two nodes share a DID. -/
theorem Safe.step (hdid : Function.Injective fun n => (identity n).did) (h : Safe identity w)
    (ha : w.Allowed identity a) : Safe identity (w.step identity a) where
  sound := h.sound_step a
  copies n m := by
    by_cases hnm : n = m
    · rw [hnm]
    refine List.IsPrefix.trans ?_ (h.history_step a m _)
    rcases journal_step w a n with hj | ⟨kind, body, now, -, hj⟩ | ⟨-, hj⟩ | ⟨k, trust, p, -, hp, -, hj⟩
    · rw [hj]; exact h.copies n m
    · rw [hj, ((h.sound n).history_append ..).2 fun heq => hnm (hdid heq)]
      exact h.copies n m
    · rw [hj, history_reopen]; exact h.copies n m
    · rw [hj]; exact h.copy_merge (h.unforged p hp) trust
  unforged := by
    have hold : ∀ p ∈ w.sent, (w.step identity a).Unforged identity (eventsOf p.message) :=
      fun p hp => (h.unforged p hp).mono (h.history_step a)
    cases a with
    | append n kind body now => exact hold
    | reopen n => exact hold
    | initiate src dst =>
        intro p hp
        rcases List.mem_append.mp hp with hp | hp
        · exact hold p hp
        · rw [List.mem_singleton.mp hp]
          intro e he
          cases he
    | deliver k trust =>
        intro p hp
        have hp' := hp
        rw [Mesh.step] at hp'
        cases hk : w.sent[k]? with
        | none =>
            rw [hk] at hp'
            exact hold p hp'
        | some packet =>
            rw [hk] at hp'
            rcases List.mem_append.mp hp' with hp' | hp'
            · exact hold p hp'
            · obtain ⟨reply, hreply, rfl⟩ := List.mem_map.mp hp'
              intro e he _ m hm
              have hrow := (h.sound packet.dst).mem_replies hreply he
              have hmem : e.toPayload ∈ (w.journal packet.dst).history (identity m).did := by
                rw [(h.sound _).history_eq]
                exact List.mem_map_of_mem (mem_log.mpr ⟨hrow, hm⟩)
              exact (h.history_step _ m _).subset ((h.copies packet.dst m).subset hmem)
    | inject packet =>
        intro p hp
        rcases List.mem_append.mp hp with hp | hp
        · exact hold p hp
        · rw [List.mem_singleton.mp hp]
          exact Unforged.mono ha (h.history_step _)

omit [DecidableEq N] in
theorem safe_start : Safe identity (start : Mesh N F) where
  sound _ := sound_empty
  copies _ _ := List.nil_prefix
  unforged p hp := by cases hp

theorem Safe.leads (hdid : Function.Injective fun n => (identity n).did) (h : Safe identity w)
    (hw : Leads identity w w') : Safe identity w' ∧
      ∀ n author, (w.journal n).history author <+: (w'.journal n).history author := by
  induction hw with
  | refl => exact ⟨h, fun _ _ => List.prefix_rfl⟩
  | tail _ hnext ih =>
      obtain ⟨hmid, hmono⟩ := ih
      obtain ⟨a, ha, rfl⟩ := hnext
      exact ⟨hmid.step hdid ha, fun n author => (hmono n author).trans (hmid.history_step a n author)⟩

/-- The nodes `a` and `b` sync, in one process. -/
def sync (trust : N → String → Bool) (a : N) (w : Mesh N F) (b : N) : Mesh N F :=
  let (ja, jb) := sync_round C (trust a) (trust b) (w.journal a) (w.journal b)
  { w with journal := Function.update (Function.update w.journal a ja) b jb }

/-- Every event of the batch is held by some node. -/
def Held (w : Mesh N F) (events : List (Event F)) : Prop :=
  ∀ e ∈ events, ∃ n, e.toPayload ∈ (w.journal n).history e.author

/-- What becomes of a safe mesh in which nothing is appended. -/
structure Grown (identity : N → Signer C) (w w' : Mesh N F) : Prop where
  safe : Safe identity w'
  mono : ∀ n author, (w.journal n).history author <+: (w'.journal n).history author
  own : ∀ m, (w'.journal m).history (identity m).did = (w.journal m).history (identity m).did
  absent : ∀ author, (∀ n, (w.journal n).history author = []) →
    ∀ n, (w'.journal n).history author = []

omit [DecidableEq N] in
theorem Grown.refl (h : Safe identity w) : Grown identity w w :=
  ⟨h, fun _ _ => List.prefix_rfl, fun _ => rfl, fun _ hnone => hnone⟩

omit [DecidableEq N] in
theorem Grown.trans {w'' : Mesh N F} (h : Grown identity w w') (h' : Grown identity w' w'') :
    Grown identity w w'' :=
  ⟨h'.safe, fun n author => (h.mono n author).trans (h'.mono n author),
    fun m => (h'.own m).trans (h.own m), fun author hnone => h'.absent author (h.absent author hnone)⟩

omit [DecidableEq N] in
theorem Held.grown {events : List (Event F)} (h : w.Held events) (hw : Grown identity w w') :
    w'.Held events := fun e he =>
  (h e he).imp fun n hn => (hw.mono n _).subset hn

omit [DecidableEq N] in
theorem Safe.unforged_of_held (h : Safe identity w) {events : List (Event F)} (hheld : w.Held events) :
    w.Unforged identity events := by
  intro e he _ m hm
  obtain ⟨n, hn⟩ := hheld e he
  rw [hm] at hn
  exact (h.copies n m).subset hn

omit [DecidableEq N] in
theorem Safe.held_since (h : Safe identity w) (n : N) (heads : OrderedDict String ℤ) :
    w.Held ((w.journal n).events_since heads) := by
  intro e he
  refine ⟨n, ?_⟩
  rw [(h.sound n).history_eq]
  exact List.mem_map_of_mem (mem_log.mpr ⟨((h.sound n).mem_events_since.mp he).1, rfl⟩)

/-- One node merges what others hold. -/
theorem Safe.merge_at (h : Safe identity w) (trust : String → Bool) (n : N) {es : List (Event F)}
    (hes : w.Held es) :
    Grown identity w ⟨Function.update w.journal n (merge C trust es (w.journal n)).1, w.sent⟩ := by
  have hself : ∀ x : N, x = n → Function.update w.journal n (merge C trust es (w.journal n)).1 x =
      (merge C trust es (w.journal x)).1 := by
    intro x hx
    rw [hx, Function.update_self]
  have hother : ∀ x : N, x ≠ n →
      Function.update w.journal n (merge C trust es (w.journal n)).1 x = w.journal x := fun x hx =>
    Function.update_of_ne hx ..
  have hunforged := h.unforged_of_held hes
  have hmono : ∀ x author, (w.journal x).history author <+:
      (Function.update w.journal n (merge C trust es (w.journal n)).1 x).history author := by
    intro x author
    by_cases hx : x = n
    · rw [hself x hx]
      exact (h.sound x).history_merge trust es author
    · rw [hother x hx]
  have hcopies : ∀ x m, (Function.update w.journal n (merge C trust es (w.journal n)).1 x).history
      (identity m).did <+: (w.journal m).history (identity m).did := by
    intro x m
    by_cases hx : x = n
    · rw [hself x hx]
      exact h.copy_merge hunforged trust
    · rw [hother x hx]
      exact h.copies x m
  refine ⟨⟨fun x => ?_, fun x m => (hcopies x m).trans (hmono m _), fun p hp =>
    (h.unforged p hp).mono hmono⟩, hmono, fun m => ?_, fun author hnone x => ?_⟩
  · dsimp only
    by_cases hx : x = n
    · rw [hself x hx]
      exact (h.sound x).merge trust es
    · rw [hother x hx]
      exact h.sound x
  · exact (hcopies m m).eq_of_length (le_antisymm (hcopies m m).length_le (hmono m _).length_le)
  · dsimp only
    by_cases hx : x = n
    · rw [hself x hx, ← hnone x]
      refine (h.sound x).history_merge_of_not_mem trust fun e he hauthor => ?_
      obtain ⟨y, hy⟩ := hes e he
      rw [hauthor, hnone y] at hy
      cases hy
    · rw [hother x hx]
      exact hnone x

/-- After a sync, each of the two holds what the other did. -/
theorem Safe.sync (h : Safe identity w) {trust : N → String → Bool} {a b : N} (hab : a ≠ b)
    (htrust : ∀ n m, trust n (identity m).did = true) :
    Grown identity w (sync trust a w b (C := C)) ∧
    ∀ m, (w.journal a).history (identity m).did <+:
        ((sync trust a w b (C := C)).journal b).history (identity m).did ∧
      (w.journal b).history (identity m).did <+:
        ((sync trust a w b (C := C)).journal a).history (identity m).did := by
  have h₁ := h.merge_at (trust a) a (h.held_since b (w.journal a).heads)
  have hb : Function.update w.journal a
      (merge C (trust a) ((w.journal b).events_since (w.journal a).heads) (w.journal a)).1 b = w.journal b :=
    Function.update_of_ne (Ne.symm hab) ..
  have h₂ := h₁.safe.merge_at (trust b) b ((h.held_since a (w.journal b).heads).grown h₁)
  dsimp only at h₂
  rw [hb] at h₂
  refine ⟨h₁.trans h₂, fun m => ?_⟩
  have hheads : ∀ n : N, ((w.journal n).heads.get (identity m).did).getD 0 ≤
      ((w.journal n).log (identity m).did).length := fun n => ((h.sound n).heads_get _).le
  constructor
  · have hcatch := (h.sound b).catch_up (h.sound a) (htrust b m) (hheads b)
      (h.copy_merge (h.unforged_of_held (h.held_since a _)) (trust b)) (h.copies a m)
    dsimp only [Mesh.sync, sync_round]
    rw [Function.update_self]
    exact hcatch
  · have hcatch := (h.sound a).catch_up (h.sound b) (htrust a m) (hheads a)
      (h.copy_merge (h.unforged_of_held (h.held_since b _)) (trust a)) (h.copies b m)
    dsimp only [Mesh.sync, sync_round]
    rw [Function.update_of_ne hab, Function.update_self]
    exact hcatch

/-- The hub syncs with one node after the other. -/
def syncs (trust : N → String → Bool) (hub : N) (w : Mesh N F) (nodes : List N) : Mesh N F :=
  nodes.foldl (sync trust hub (C := C)) w

/-- A hub that synced with some nodes holds what they did, and they what it
did. -/
theorem Safe.syncs {trust : N → String → Bool} {hub : N} (htrust : ∀ n m, trust n (identity m).did = true) :
    ∀ {l : List N} {w : Mesh N F}, Safe identity w → hub ∉ l →
      Grown identity w (syncs trust hub w l (C := C)) ∧
      ∀ n ∈ l, ∀ m, (w.journal n).history (identity m).did <+:
          ((Mesh.syncs trust hub w l (C := C)).journal hub).history (identity m).did ∧
        (w.journal hub).history (identity m).did <+:
          ((Mesh.syncs trust hub w l (C := C)).journal n).history (identity m).did
  | [], w, h, _ => ⟨Grown.refl h, fun n hn => by cases hn⟩
  | b :: l, w, h, hhub => by
      rw [List.mem_cons, not_or] at hhub
      obtain ⟨h₁, hboth⟩ := h.sync hhub.1 htrust
      obtain ⟨h₂, hall⟩ := Safe.syncs htrust h₁.safe hhub.2
      refine ⟨h₁.trans h₂, fun n hn m => ?_⟩
      rcases List.mem_cons.mp hn with rfl | hn
      · exact ⟨(hboth m).2.trans (h₂.mono hub _), (hboth m).1.trans (h₂.mono n _)⟩
      · exact ⟨(h₁.mono n _).trans (hall n hn m).1, (h₁.mono hub _).trans (hall n hn m).2⟩

section

variable {trust : N → String → Bool} {hub : N} {first again : List N}

theorem star_grown (hdid : Function.Injective fun n => (identity n).did)
    (hw : Leads identity start w) (htrust : ∀ n m, trust n (identity m).did = true)
    (hhub : hub ∉ first ∧ hub ∉ again) :
    Grown identity w (syncs trust hub (syncs trust hub w first (C := C)) again (C := C)) := by
  obtain ⟨h₁, -⟩ := (safe_start.leads hdid hw).1.syncs htrust hhub.1
  exact h₁.trans (h₁.safe.syncs htrust hhub.2).1

/-- All hold every author's events. -/
theorem star_history (hdid : Function.Injective fun n => (identity n).did)
    (hw : Leads identity start w) (htrust : ∀ n m, trust n (identity m).did = true)
    (hhub : hub ∉ first ∧ hub ∉ again) {n m : N} (hn : n ∈ hub :: again) (hm : m ∈ hub :: first) :
    ((syncs trust hub (syncs trust hub w first (C := C)) again (C := C)).journal n).history
      (identity m).did = (w.journal m).history (identity m).did := by
  obtain ⟨h₁, hfirst⟩ := (safe_start.leads hdid hw).1.syncs htrust hhub.1
  obtain ⟨h₂, hagain⟩ := h₁.safe.syncs htrust hhub.2
  have hgathered : (w.journal m).history (identity m).did <+:
      ((syncs trust hub w first (C := C)).journal hub).history (identity m).did := by
    rcases List.mem_cons.mp hm with rfl | hm
    · exact h₁.mono m _
    · exact (hfirst m hm m).1
  have hspread : ((syncs trust hub w first (C := C)).journal hub).history (identity m).did <+:
      ((syncs trust hub (syncs trust hub w first (C := C)) again (C := C)).journal n).history
        (identity m).did := by
    rcases List.mem_cons.mp hn with rfl | hn
    · exact h₂.mono n _
    · exact (hagain n hn m).2
  have hcopy := h₂.safe.copies n m
  rw [(h₁.trans h₂).own m] at hcopy
  exact hcopy.eq_of_length (le_antisymm hcopy.length_le (hgathered.trans hspread).length_le)

/-- All read back the same events, if they hold nobody else's. -/
theorem star_events [LinearOrder F] (hdid : Function.Injective fun n => (identity n).did)
    (hw : Leads identity start w) (htrust : ∀ n m, trust n (identity m).did = true)
    (hhub : hub ∉ first ∧ hub ∉ again)
    (hclosed : ∀ n, ∀ e ∈ (w.journal n).rows, ∃ m ∈ hub :: first, e.author = (identity m).did)
    {n n' : N} (hn : n ∈ hub :: again) (hn' : n' ∈ hub :: again) :
    let w' := syncs trust hub (syncs trust hub w first (C := C)) again (C := C)
    (w'.journal n).events.map (·.toPayload) = (w'.journal n').events.map (·.toPayload) := by
  have hgrown := star_grown hdid hw htrust hhub
  refine (hgrown.safe.sound n).events_eq (hgrown.safe.sound n') fun author => ?_
  by_cases hauthor : ∃ m ∈ hub :: first, (identity m).did = author
  · obtain ⟨m, hm, rfl⟩ := hauthor
    exact (star_history hdid hw htrust hhub hn hm).trans (star_history hdid hw htrust hhub hn' hm).symm
  · have hnone : ∀ n, (w.journal n).history author = [] := by
      intro x
      rw [((safe_start.leads hdid hw).1.sound x).history_eq, List.map_eq_nil_iff,
        List.eq_nil_iff_forall_not_mem]
      intro e he
      obtain ⟨hrow, hrow_author⟩ := mem_log.mp he
      obtain ⟨m, hm, hdid⟩ := hclosed x e hrow
      exact hauthor ⟨m, hm, hdid.symm.trans hrow_author⟩
    have habsent := hgrown.absent author hnone
    exact (habsent n).trans (habsent n').symm

end

end

/-! ## Two nodes -/

namespace TwoNodes

local instance : FloatCodec Unit := ⟨fun _ => none, fun _ => []⟩

def identity (n : Bool) : Signer .lenient := OneNode.signer (if n then "a" else "b")

theorem identity_injective : Function.Injective fun n => (identity n).did := by
  intro n m
  revert n m
  decide

/-- Each node has written one event. -/
def acts : List (Act Bool Unit) := [.append true "note" .null (), .append false "note" .null ()]

def written : Mesh Bool Unit := acts.foldl (step identity) start

theorem leads_written : Leads identity start written :=
  .tail (.tail .refl ⟨.append true "note" .null (), trivial, rfl⟩)
    ⟨.append false "note" .null (), trivial, rfl⟩

def everyone (_ : Bool) (_ : String) : Bool := true

end TwoNodes

end Mesh

end Secdogie.Citadel
