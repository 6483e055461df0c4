/-
# `Secdogie.Citadel.Journal` — the signed, append-only event journal

A table of events, one hash chain for each author.  A node appends what it
authors, and merges what others did: an event is stored if it is authentic
and is the next of its author's chain, and is dropped otherwise.

`sound_of_run`: whatever is appended and merged, in any order, every author's
rows are numbered from one, each linked to the one before and signed.
`verify_of_run`: so `verify` finds nothing to complain about.  `merge_again`:
what was merged once is not merged again, whatever it was.

An event has the types `append` gives its fields.  The integer columns of the
table hold 64 bits, and storing a greater number raises.
-/
import Secdogie.Lib.OrderedDict
import Secdogie.Lib.Ties
import Secdogie.Identity.Signing

namespace Secdogie.Citadel

open Secdogie.Graph Secdogie.Identity

/-- `prev_hash` of an author's first event. -/
def GENESIS : String := String.ofList (List.replicate 64 '0')

/-- What the signature of an event covers. -/
structure Payload (F : Type) where
  author : String
  seq : ℤ
  lamport : ℤ
  ts : F
  kind : String
  body : Value F
  prev_hash : String

structure Event (F : Type) extends Payload F where
  entry_hash : String
  sig : String

structure Journal (F : Type) where
  /-- the table, oldest row first -/
  rows : List (Event F)
  /-- the Lamport clock -/
  lamport : ℤ

/-- What an integer column can hold. -/
def int64 (n : ℤ) : Bool := decide (-2 ^ 63 ≤ n ∧ n < 2 ^ 63)

namespace Journal

/-! ## The table -/

section

variable {F : Type}

def empty : Journal F := ⟨[], 0⟩

/-- The rows of one author, as they were inserted. -/
def log (j : Journal F) (author : String) : List (Event F) :=
  j.rows.filter (fun e => decide (e.author = author))

/-- `SELECT * FROM journal WHERE author = ? ORDER BY seq` -/
def select (j : Journal F) (author : String) : List (Event F) :=
  (j.log author).insertionSort fun a b => a.seq ≤ b.seq

/-- `MAX(lamport)`, or 0 for an empty table. -/
def max_lamport (j : Journal F) : ℤ := ((j.rows.map (·.lamport)).max?).getD 0

def head (j : Journal F) (author : String) : ℤ × String :=
  match (j.select author).getLast? with
  | none => (0, GENESIS)
  | some row => (row.seq, row.entry_hash)

/-- `_insert`; `none` is an `OverflowError`. -/
def insert (j : Journal F) (e : Event F) : Option (Journal F) :=
  if int64 e.seq && int64 e.lamport then some { j with rows := j.rows ++ [e] } else none

/-- The journal, opened again from its table. -/
def reopen (j : Journal F) : Journal F := { j with lamport := j.max_lamport }

/-- The authors of the table; `GROUP BY` promises no order of them. -/
def authors (j : Journal F) : List String := (j.rows.map (·.author)).dedup

/-- The highest `seq` of each author. -/
def heads (j : Journal F) : OrderedDict String ℤ :=
  ⟨j.authors.map (fun a => (a, (j.head a).1)), by
    rw [List.map_map]
    exact (List.map_id _).symm ▸ List.nodup_dedup _⟩

def since (j : Journal F) (author : String) (after_seq : ℤ) : List (Event F) :=
  (j.select author).filter (fun e => decide (after_seq < e.seq))

/-- What a batch is sorted by. -/
def place (e : Event F) : String ×ₗ ℤ := toLex (e.author, e.seq)

/-- The hash the next event has to name. -/
def lastHash (prev : String) (l : List (Event F)) : String := (l.getLast?.map (·.entry_hash)).getD prev

variable {j : Journal F} {author prev : String} {l : List (Event F)} {e : Event F}

@[simp] theorem lastHash_nil : lastHash prev ([] : List (Event F)) = prev := rfl

@[simp] theorem lastHash_cons : lastHash prev (e :: l) = lastHash e.entry_hash l := by
  rw [lastHash, lastHash, List.getLast?_cons]
  cases l.getLast? <;> rfl

@[simp] theorem lastHash_concat : lastHash prev (l ++ [e]) = e.entry_hash := by
  simp [lastHash]

theorem mem_log : e ∈ j.log author ↔ e ∈ j.rows ∧ e.author = author := by
  rw [log, List.mem_filter, decide_eq_true_eq]

theorem log_concat (author : String) (rows : List (Event F)) (e : Event F) (lamport : ℤ) :
    (⟨rows ++ [e], lamport⟩ : Journal F).log author =
      if e.author = author then (⟨rows, lamport⟩ : Journal F).log author ++ [e]
      else (⟨rows, lamport⟩ : Journal F).log author := by
  rw [log, log, List.filter_append, List.filter_singleton]
  by_cases he : e.author = author
  · rw [if_pos he, decide_eq_true he]
    rfl
  · rw [if_neg he, decide_eq_false he]
    exact List.append_nil _

/-- The journal with the event stored. -/
def stored (j : Journal F) (e : Event F) : Journal F := ⟨j.rows ++ [e], max j.lamport e.lamport⟩

theorem log_stored (j : Journal F) (e : Event F) (author : String) :
    (stored j e).log author = if e.author = author then j.log author ++ [e] else j.log author :=
  log_concat author j.rows e (max j.lamport e.lamport)

/-- The rows of each author, in the order of `seq`. -/
def by_author (j : Journal F) : OrderedDict String (List (Event F)) :=
  (j.rows.insertionSort fun a b => place a ≤ place b).foldl
    (fun d row => d.set row.author ((d.get row.author).getD [] ++ [row])) .empty

/-- One author's rows in the order in which `verify` goes over the table. -/
def group (j : Journal F) (author : String) : List (Event F) :=
  (j.rows.insertionSort fun a b => place a ≤ place b).filter (fun e => decide (e.author = author))

theorem get_by_author (l : List (Event F)) (author : String) :
    let d := l.foldl (fun d row => d.set row.author ((d.get row.author).getD [] ++ [row]))
      (OrderedDict.empty : OrderedDict String (List (Event F)))
    (d.get author).getD [] = l.filter (fun e => decide (e.author = author)) ∧ d.get author ≠ some [] := by
  induction l using List.reverseRecOn with
  | nil => exact ⟨rfl, by intro h; cases h⟩
  | append_singleton l e ih =>
      obtain ⟨hrows, hne⟩ := ih
      dsimp only at hrows hne ⊢
      rw [List.foldl_concat, OrderedDict.get_set, List.filter_append, List.filter_singleton, ← hrows]
      split_ifs with he
      · subst he
        rw [decide_eq_true rfl]
        refine ⟨rfl, fun hnil => ?_⟩
        exact absurd (Option.some.inj hnil) (List.append_ne_nil_of_right_ne_nil _ (List.cons_ne_nil _ _))
      · rw [decide_eq_false (Ne.symm he)]
        exact ⟨(List.append_nil _).symm, hne⟩

theorem mem_by_author {rows : List (Event F)} :
    (author, rows) ∈ j.by_author.items ↔ rows = j.group author ∧ rows ≠ [] := by
  obtain ⟨hrows, hne⟩ := get_by_author (j.rows.insertionSort fun a b => place a ≤ place b) author
  rw [← OrderedDict.get_eq_some_iff, group, ← hrows, by_author]
  constructor
  · intro hget
    rw [hget] at hne ⊢
    exact ⟨rfl, fun hnil => hne (congrArg some hnil)⟩
  · rintro ⟨hrows, hrows_ne⟩
    cases hget : (j.rows.insertionSort fun a b => place a ≤ place b).foldl
        (fun d row => d.set row.author ((d.get row.author).getD [] ++ [row]))
        (OrderedDict.empty : OrderedDict String (List (Event F))) |>.get author with
    | none =>
        rw [hget] at hrows
        exact absurd hrows hrows_ne
    | some r =>
        rw [hget] at hrows
        exact congrArg some hrows.symm

theorem group_perm (j : Journal F) (author : String) : (j.group author).Perm (j.select author) :=
  ((List.perm_insertionSort _ j.rows).filter _).trans (List.perm_insertionSort _ _).symm

theorem group_sorted (j : Journal F) (author : String) :
    (j.group author).Pairwise fun a b => a.seq ≤ b.seq := by
  have hsorted := (List.pairwise_insertionSort (fun a b : Event F => place a ≤ place b) j.rows).filter
    (fun e => decide (e.author = author))
  refine hsorted.imp_of_mem fun {a b} ha hb hab => ?_
  rw [group, List.mem_filter, decide_eq_true_eq] at ha hb
  rcases Prod.Lex.le_iff.mp hab with hlt | ⟨-, hle⟩
  · exact absurd (ha.2.trans hb.2.symm) (ne_of_lt hlt)
  · exact hle

end

/-! ## Writing and merging -/

section

variable {F : Type} [FloatCodec F] (C : Crypto)

/-- The bytes that are hashed and signed, as a value. -/
def payload_value (p : Payload F) : Value F :=
  obj [("author", .str p.author), ("seq", .int p.seq), ("lamport", .int p.lamport), ("ts", .float p.ts),
    ("kind", .str p.kind), ("body", p.body), ("prev_hash", .str p.prev_hash)]

def entry_hash (p : Payload F) : String := digest C (payload_value p)

/-- `append`; no event when it raises. -/
def append (identity : Signer C) (kind : String) (body : Value F) (now : F) (j : Journal F) :
    Journal F × Option (Event F) :=
  let (head_seq, head_hash) := j.head identity.did
  let j := { j with lamport := j.lamport + 1 }
  let payload : Payload F := ⟨identity.did, head_seq + 1, j.lamport, now, kind, body, head_hash⟩
  let event : Event F :=
    { payload with
      entry_hash := entry_hash C payload
      sig := identity.sign (canonical (payload_value payload)) }
  match j.insert event with
  | none => (j, none)
  | some j => (j, some event)

/-- The checks of `_accept` that do not look at the table. -/
def authentic (trust : String → Bool) (e : Event F) : Bool :=
  decide (1 ≤ e.seq) &&
    match C.publicKey e.author with
    | none => false
    | some pub =>
        trust e.author &&
          match C.b64decode e.sig with
          | none => false
          | some sig =>
              C.verify pub (canonical (payload_value e.toPayload)) sig &&
                decide (e.entry_hash = entry_hash C e.toPayload)

/-- `_accept`; `none` when it raises. -/
def accept (trust : String → Bool) (j : Journal F) (e : Event F) : Journal F × Option Bool :=
  if !authentic C trust e then (j, some false)
  else if (j.select e.author).any (fun row => decide (row.seq = e.seq)) then (j, some false)
  else if e.seq ≠ (j.head e.author).1 + 1 ∨ e.prev_hash ≠ (j.head e.author).2 then (j, some false)
  else
    match j.insert e with
    | none => (j, none)
    | some j => ({ j with lamport := max j.lamport e.lamport }, some true)

/-- The loop of `merge` over the sorted batch. -/
def accept_all (trust : String → Bool) : Journal F → List (Event F) → Journal F × Option ℕ
  | j, [] => (j, some 0)
  | j, e :: es =>
      match accept C trust j e with
      | (j, none) => (j, none)
      | (j, some accepted) =>
          let (j, count) := accept_all trust j es
          (j, count.map (· + accepted.toNat))

/-- `merge`: how many were newly accepted; `none` when it raises. -/
def merge (trust : String → Bool) (events : List (Event F)) (j : Journal F) : Journal F × Option ℕ :=
  accept_all C trust j (events.insertionSort fun a b => place a ≤ place b)

/-! ## Runs -/

inductive Step (C : Crypto) (F : Type) where
  | append (identity : Signer C) (kind : String) (body : Value F) (now : F)
  | merge (trust : String → Bool) (events : List (Event F))
  | reopen

def step (j : Journal F) : Step C F → Journal F
  | .append identity kind body now => (append C identity kind body now j).1
  | .merge trust events => (merge C trust events j).1
  | .reopen => j.reopen

def run (steps : List (Step C F)) : Journal F := steps.foldl (step C) empty

/-! ## Verification -/

/-- How `verify` decodes a signature: without the check of the alphabet. -/
structure Decoder (C : Crypto) where
  b64decode : String → Option (List UInt8)
  agrees : ∀ s sig, C.b64decode s = some sig → b64decode s = some sig

/-- The checks of one author's rows, `i` of which were good. -/
def check_rows (D : Decoder C) (author : String) (pub : List UInt8) :
    ℕ → String → List (Event F) → Option String
  | _, _, [] => none
  | i, prev, e :: es =>
      let name := author ++ "#" ++ toString e.seq
      if e.seq ≠ i + 1 then some (name ++ ": seq out of order")
      else if e.prev_hash ≠ prev then some (name ++ ": chain broken")
      else if e.entry_hash ≠ entry_hash C e.toPayload then
        some (name ++ ": content does not match its hash")
      else
        match D.b64decode e.sig with
        | none => some (name ++ ": unreadable signature")
        | some sig =>
            if !C.verify pub (canonical (payload_value e.toPayload)) sig then some (name ++ ": bad signature")
            else check_rows D author pub (i + 1) e.entry_hash es

/-- `verify`: what is wrong with the first broken event, if anything. -/
def verify (D : Decoder C) (j : Journal F) : Option String :=
  j.by_author.items.findSome? fun (author, rows) =>
    match C.publicKey author with
    | none => some (author ++ ": not a valid did:key")
    | some pub => check_rows C D author pub 0 GENESIS rows

/-! ## Chains -/

/-- The event is signed by its author, and its hash is its content's. -/
structure Genuine (e : Event F) : Prop where
  hash : e.entry_hash = entry_hash C e.toPayload
  signed : ∃ pub sig, C.publicKey e.author = some pub ∧ C.b64decode e.sig = some sig ∧
    C.verify pub (canonical (payload_value e.toPayload)) sig = true

/-- The event follows `n` others, the last of which has the hash `prev`. -/
structure Follows (n : ℕ) (prev : String) (e : Event F) : Prop where
  seq : e.seq = n + 1
  prev_hash : e.prev_hash = prev

/-- The rows are a chain of genuine events of the author. -/
def Chained (author : String) : ℕ → String → List (Event F) → Prop
  | _, _, [] => True
  | n, prev, e :: es => e.author = author ∧ Genuine C e ∧ Follows n prev e ∧
      Chained author (n + 1) e.entry_hash es

/-- Every author's rows are a chain, the columns hold them, and the clock is
not behind them. -/
structure Sound (j : Journal F) : Prop where
  chained : ∀ author, Chained C author 0 GENESIS (j.log author)
  fits : ∀ e ∈ j.rows, int64 e.seq = true ∧ int64 e.lamport = true
  clock : ∀ e ∈ j.rows, e.lamport ≤ j.lamport

/-- What a journal stores: a genuine event of a trusted author, the next of
its author's chain. -/
structure Admissible (trust : String → Bool) (j : Journal F) (e : Event F) : Prop where
  trusted : trust e.author = true
  genuine : Genuine C e
  follows : Follows (j.log e.author).length (lastHash GENESIS (j.log e.author)) e

section

variable {C} {author : String} {n : ℕ} {prev : String} {l : List (Event F)} {e : Event F}

theorem chained_concat : ∀ {n : ℕ} {prev : String} {l : List (Event F)},
    Chained C author n prev (l ++ [e]) ↔ Chained C author n prev l ∧ e.author = author ∧
      Genuine C e ∧ Follows (n + l.length) (lastHash prev l) e
  | n, prev, [] => by simp [Chained]
  | n, prev, a :: l => by
      have ih : Chained C author (n + 1) a.entry_hash (l ++ [e]) ↔ _ := chained_concat
      have hlen : n + 1 + l.length = n + (a :: l).length := by rw [List.length_cons]; omega
      rw [hlen] at ih
      rw [List.cons_append, Chained, Chained, ih, lastHash_cons]
      tauto

theorem Chained.bounds : ∀ {n : ℕ} {prev : String} {l : List (Event F)}, Chained C author n prev l →
    ∀ e ∈ l, (n : ℤ) < e.seq ∧ e.seq ≤ n + l.length
  | n, prev, a :: l, h, e, he => by
      obtain ⟨-, -, hfollows, hrest⟩ := h
      have hseq := hfollows.seq
      rw [List.length_cons]
      rcases List.mem_cons.mp he with rfl | he
      · omega
      · have := hrest.bounds e he
        omega

theorem Chained.sorted : ∀ {n : ℕ} {prev : String} {l : List (Event F)}, Chained C author n prev l →
    l.Pairwise (fun a b => a.seq ≤ b.seq)
  | n, prev, [], _ => List.Pairwise.nil
  | n, prev, a :: l, h => by
      obtain ⟨-, -, hfollows, hrest⟩ := h
      refine List.pairwise_cons.mpr ⟨fun e he => ?_, hrest.sorted⟩
      have hseq := hfollows.seq
      have := (hrest.bounds e he).1
      omega

/-- The rows after the `m`th. -/
theorem Chained.filter_seq : ∀ {n : ℕ} {prev : String} {l : List (Event F)}, Chained C author n prev l →
    ∀ m : ℕ, n ≤ m → l.filter (fun e => decide ((m : ℤ) < e.seq)) = l.drop (m - n)
  | n, prev, [], _, m, _ => by simp
  | n, prev, a :: l, h, m, hm => by
      have hbounds := h.bounds
      obtain ⟨-, -, hfollows, hrest⟩ := h
      have hseq := hfollows.seq
      rcases Nat.eq_or_lt_of_le hm with rfl | hlt
      · rw [Nat.sub_self, List.drop_zero, List.filter_eq_self]
        intro e he
        exact decide_eq_true (hbounds e he).1
      · have hhead : decide ((m : ℤ) < a.seq) = false := decide_eq_false (by omega)
        have hdrop : m - n = (m - (n + 1)) + 1 := by omega
        rw [List.filter_cons_of_neg (by rw [hhead]; exact Bool.false_ne_true), hdrop,
          List.drop_succ_cons]
        exact hrest.filter_seq m hlt

end

/-! ## Reading a sound journal -/

section

variable {C} {j : Journal F} {author : String} {e : Event F} {trust : String → Bool}

theorem Sound.select_eq (h : Sound C j) (author : String) : j.select author = j.log author :=
  (h.chained author).sorted.insertionSort_eq

theorem Sound.head_eq (h : Sound C j) (author : String) :
    j.head author = (((j.log author).length : ℤ), lastHash GENESIS (j.log author)) := by
  have hchain := h.chained author
  rw [head, h.select_eq]
  rcases List.eq_nil_or_concat (j.log author) with hnil | ⟨l, e, hl⟩
  · rw [hnil]
    rfl
  · rw [List.concat_eq_append] at hl
    rw [hl] at hchain ⊢
    obtain ⟨-, -, -, hfollows⟩ := chained_concat.mp hchain
    have hseq := hfollows.seq
    rw [List.getLast?_concat]
    simp only [lastHash_concat, List.length_append, List.length_singleton, Prod.mk.injEq, and_true]
    rw [hseq]
    push_cast
    omega

theorem Sound.since_eq (h : Sound C j) (author : String) (m : ℕ) :
    j.since author m = (j.log author).drop m := by
  rw [since, h.select_eq, (h.chained author).filter_seq m (Nat.zero_le m), Nat.sub_zero]

theorem sound_empty : Sound C (empty : Journal F) where
  chained _ := trivial
  fits e he := by cases he
  clock e he := by cases he

/-- A row that is next of its author's chain may be stored. -/
theorem Sound.store (h : Sound C j) (hgenuine : Genuine C e)
    (hfollows : Follows (j.log e.author).length (lastHash GENESIS (j.log e.author)) e)
    (hfits : int64 e.seq = true ∧ int64 e.lamport = true) {lamport : ℤ} (hclock : j.lamport ≤ lamport)
    (hnew : e.lamport ≤ lamport) : Sound C ⟨j.rows ++ [e], lamport⟩ where
  chained author := by
    have hlog : (⟨j.rows, lamport⟩ : Journal F).log author = j.log author := rfl
    rw [log_concat, hlog]
    split_ifs with he
    · subst he
      refine chained_concat.mpr ⟨h.chained _, rfl, hgenuine, ?_⟩
      rwa [Nat.zero_add]
    · exact h.chained author
  fits e' he' := by
    rcases List.mem_append.mp he' with he' | he'
    · exact h.fits e' he'
    · rw [List.mem_singleton.mp he']
      exact hfits
  clock e' he' := by
    rcases List.mem_append.mp he' with he' | he'
    · exact (h.clock e' he').trans hclock
    · rw [List.mem_singleton.mp he']
      exact hnew

/-- The event `append` signs. -/
def signedEvent (identity : Signer C) (kind : String) (body : Value F) (now : F) (j : Journal F) :
    Event F :=
  let payload : Payload F := ⟨identity.did, (j.head identity.did).1 + 1, j.lamport + 1, now, kind, body,
    (j.head identity.did).2⟩
  { payload with
    entry_hash := entry_hash C payload
    sig := identity.sign (canonical (payload_value payload)) }

theorem genuine_signedEvent (identity : Signer C) (kind : String) (body : Value F) (now : F)
    (j : Journal F) : Genuine C (signedEvent identity kind body now j) where
  hash := rfl
  signed := by
    obtain ⟨sig, hdecode, hverify⟩ := identity.verifies
      (canonical (payload_value (signedEvent identity kind body now j).toPayload))
    exact ⟨identity.key, sig, identity.key_of_did, hdecode, hverify⟩

/-- What `append` does: the clock ticks, and the event is stored if it fits. -/
theorem append_eq (identity : Signer C) (kind : String) (body : Value F) (now : F) (j : Journal F) :
    append C identity kind body now j =
      if int64 (signedEvent identity kind body now j).seq &&
          int64 (signedEvent identity kind body now j).lamport then
        (⟨j.rows ++ [signedEvent identity kind body now j], j.lamport + 1⟩,
          some (signedEvent identity kind body now j))
      else (⟨j.rows, j.lamport + 1⟩, none) := by
  have hinsert : insert (⟨j.rows, j.lamport + 1⟩ : Journal F) (signedEvent identity kind body now j) =
      if int64 (signedEvent identity kind body now j).seq &&
          int64 (signedEvent identity kind body now j).lamport then
        some ⟨j.rows ++ [signedEvent identity kind body now j], j.lamport + 1⟩ else none := rfl
  change (match insert (⟨j.rows, j.lamport + 1⟩ : Journal F) (signedEvent identity kind body now j) with
    | none => _
    | some _ => _) = _
  rw [hinsert]
  split_ifs with hfits
  · rfl
  · rfl

theorem Sound.tick (h : Sound C j) {lamport : ℤ} (hclock : j.lamport ≤ lamport) :
    Sound C ⟨j.rows, lamport⟩ where
  chained := h.chained
  fits := h.fits
  clock e he := (h.clock e he).trans hclock

theorem Sound.append (h : Sound C j) (identity : Signer C) (kind : String) (body : Value F) (now : F) :
    Sound C (append C identity kind body now j).1 := by
  rw [append_eq]
  split_ifs with hfits
  · rw [Bool.and_eq_true] at hfits
    refine h.store (genuine_signedEvent ..) ?_ hfits (Int.le_add_one le_rfl) le_rfl
    have hhead := h.head_eq identity.did
    exact ⟨congrArg (· + 1) (congrArg Prod.fst hhead), congrArg Prod.snd hhead⟩
  · exact h.tick (Int.le_add_one le_rfl)

theorem authentic_iff : authentic C trust e = true ↔
    1 ≤ e.seq ∧ trust e.author = true ∧ Genuine C e := by
  rw [authentic, Bool.and_eq_true, decide_eq_true_eq]
  refine and_congr_right fun _ => ?_
  constructor
  · intro h
    cases hpub : C.publicKey e.author with
    | none => rw [hpub] at h; cases h
    | some pub =>
        rw [hpub] at h
        rw [Bool.and_eq_true] at h
        cases hsig : C.b64decode e.sig with
        | none => rw [hsig] at h; cases h.2
        | some sig =>
            rw [hsig, Bool.and_eq_true, decide_eq_true_eq] at h
            exact ⟨h.1, h.2.2, pub, sig, hpub, hsig, h.2.1⟩
  · rintro ⟨htrust, hhash, pub, sig, hpub, hsig, hverify⟩
    rw [hpub]
    dsimp only
    rw [htrust, hsig]
    dsimp only
    rw [hverify, ← hhash]
    simp

end

/-! ## What is accepted -/

section

variable {C} {j : Journal F} {e : Event F} {trust : String → Bool}

theorem Sound.not_mem_seq (h : Sound C j) (hseq : ((j.log e.author).length : ℤ) < e.seq) :
    (j.select e.author).any (fun row => decide (row.seq = e.seq)) = false := by
  rw [h.select_eq, List.any_eq_false]
  intro row hrow heq
  have hbound := ((h.chained e.author).bounds row hrow).2
  rw [decide_eq_true_eq] at heq
  omega

/-- An event that is not admissible changes nothing. -/
theorem Sound.accept_of_not (h : Sound C j) (hno : ¬ Admissible C trust j e) :
    accept C trust j e = (j, some false) := by
  rw [accept]
  split_ifs with hauth hdup hplace
  · rfl
  · rfl
  · rfl
  · exfalso
    rw [Bool.not_eq_true, Bool.not_eq_false'] at hauth
    rw [not_or, not_not, not_not, h.head_eq] at hplace
    obtain ⟨-, htrust, hgenuine⟩ := authentic_iff.mp hauth
    exact hno ⟨htrust, hgenuine, hplace.1, hplace.2⟩

theorem Sound.accept_of_admissible (h : Sound C j) (hyes : Admissible C trust j e) :
    accept C trust j e =
      if int64 e.seq && int64 e.lamport then (stored j e, some true) else (j, none) := by
  have hseq := hyes.follows.seq
  have hauth : authentic C trust e = true :=
    authentic_iff.mpr ⟨by omega, hyes.trusted, hyes.genuine⟩
  have hdup := h.not_mem_seq (e := e) (by omega)
  have hplace : ¬ (e.seq ≠ (j.head e.author).1 + 1 ∨ e.prev_hash ≠ (j.head e.author).2) := by
    rw [not_or, not_not, not_not, h.head_eq]
    exact ⟨hseq, hyes.follows.prev_hash⟩
  rw [accept, hauth, hdup, if_neg (by decide), if_neg (by decide), if_neg hplace, insert]
  split_ifs with hfits
  · rfl
  · rfl

/-- What `accept` can do: nothing, raise, or store an admissible event. -/
theorem Sound.accept_cases (h : Sound C j) (trust : String → Bool) (e : Event F) :
    (¬ Admissible C trust j e ∧ accept C trust j e = (j, some false)) ∨
      (Admissible C trust j e ∧ ¬ (int64 e.seq = true ∧ int64 e.lamport = true) ∧
        accept C trust j e = (j, none)) ∨
      (Admissible C trust j e ∧ (int64 e.seq = true ∧ int64 e.lamport = true) ∧
        accept C trust j e = (stored j e, some true)) := by
  by_cases hadm : Admissible C trust j e
  · rw [h.accept_of_admissible hadm]
    split_ifs with hfits
    · exact .inr (.inr ⟨hadm, Bool.and_eq_true _ _ ▸ hfits, rfl⟩)
    · exact .inr (.inl ⟨hadm, Bool.and_eq_true _ _ ▸ hfits, rfl⟩)
  · exact .inl ⟨hadm, h.accept_of_not hadm⟩

theorem Sound.stored (h : Sound C j) (hadm : Admissible C trust j e)
    (hfits : int64 e.seq = true ∧ int64 e.lamport = true) : Sound C (stored j e) :=
  h.store hadm.genuine hadm.follows hfits (le_max_left _ _) (le_max_right _ _)

/-! ## Merging -/

/-- What every accepted event keeps, a batch keeps. -/
theorem Sound.accept_all_induction {P : Journal F → Prop} {es : List (Event F)}
    (hstep : ∀ j, Sound C j → P j → ∀ e ∈ es, Admissible C trust j e → Sound C (Journal.stored j e) →
      P (Journal.stored j e)) :
    ∀ {j : Journal F}, Sound C j → P j → ∀ l : List (Event F), l ⊆ es →
      Sound C (accept_all C trust j l).1 ∧ P (accept_all C trust j l).1
  | j, h, hP, [], _ => ⟨h, hP⟩
  | j, h, hP, e :: l, hl => by
      have he : e ∈ es := hl List.mem_cons_self
      have hrest : l ⊆ es := fun x hx => hl (List.mem_cons_of_mem _ hx)
      rw [accept_all]
      rcases h.accept_cases trust e with ⟨-, hacc⟩ | ⟨-, -, hacc⟩ | ⟨hadm, hfits, hacc⟩
      · rw [hacc]
        exact accept_all_induction hstep h hP l hrest
      · rw [hacc]
        exact ⟨h, hP⟩
      · rw [hacc]
        have h' := h.stored hadm hfits
        exact accept_all_induction hstep h' (hstep j h hP e he hadm h') l hrest

/-- What every accepted event keeps, `merge` keeps. -/
theorem Sound.merge_induction {P : Journal F → Prop} {es : List (Event F)}
    (hstep : ∀ j, Sound C j → P j → ∀ e ∈ es, Admissible C trust j e → Sound C (Journal.stored j e) →
      P (Journal.stored j e))
    (h : Sound C j) (hP : P j) :
    Sound C (merge C trust es j).1 ∧ P (merge C trust es j).1 :=
  h.accept_all_induction hstep hP _ fun _ he => (List.mem_insertionSort _).mp he

theorem Sound.after_all (h : Sound C j) (trust : String → Bool) (l : List (Event F)) :
    Sound C (accept_all C trust j l).1 :=
  (h.accept_all_induction (P := fun _ => True) (fun _ _ _ _ _ _ _ => trivial) trivial l
    (List.Subset.refl l)).1

theorem Sound.merge (h : Sound C j) (trust : String → Bool) (es : List (Event F)) :
    Sound C (merge C trust es j).1 :=
  h.after_all trust _

theorem Sound.reopen (h : Sound C j) : Sound C j.reopen where
  chained := h.chained
  fits := h.fits
  clock e he := by
    obtain ⟨m, hm⟩ : ∃ m, (j.rows.map (·.lamport)).max? = some m := by
      cases hmax : (j.rows.map (·.lamport)).max? with
      | none =>
          rw [List.max?_eq_none_iff, List.map_eq_nil_iff] at hmax
          rw [Journal.reopen, hmax] at he
          cases he
      | some m => exact ⟨m, rfl⟩
    have hle := (List.max?_eq_some_iff.mp hm).2 e.lamport (List.mem_map_of_mem he)
    rw [Journal.reopen, max_lamport, hm]
    exact hle

theorem Sound.step (h : Sound C j) (s : Step C F) : Sound C (step C j s) := by
  cases s with
  | append identity kind body now => exact h.append identity kind body now
  | merge trust events => exact h.merge trust events
  | reopen => exact h.reopen

theorem sound_of_run (steps : List (Step C F)) : Sound C (run C steps) := by
  have hrun : ∀ {j : Journal F}, Sound C j → Sound C (steps.foldl (Journal.step C) j) := by
    induction steps with
    | nil => exact fun h => h
    | cons s steps ih => exact fun h => ih (h.step s)
  exact hrun sound_empty

end

/-! ## Merging again -/

section

variable {C} {j : Journal F} {e e' : Event F} {trust : String → Bool}

/-- Storing what does not sort after an event that was refused does not make
it admissible. -/
theorem Admissible.of_stored (hplace : place e ≤ place e') (hadm : Admissible C trust j e')
    (hnow : Admissible C trust (stored j e') e) : Admissible C trust j e := by
  obtain ⟨htrust, hgenuine, hfollows⟩ := hnow
  rw [log_stored] at hfollows
  split_ifs at hfollows with hauthor
  · have hseq := hfollows.seq
    have hseq' := hadm.follows.seq
    rw [hauthor] at hseq'
    rw [List.length_append, List.length_singleton] at hseq
    have hle : e.seq ≤ e'.seq := by
      rcases Prod.Lex.le_iff.mp hplace with hlt | ⟨-, hle⟩
      · exact absurd hauthor (ne_of_gt hlt)
      · exact hle
    push_cast at hseq
    omega
  · exact ⟨htrust, hgenuine, hfollows⟩

/-- What has been looked at once is not admissible any more. -/
theorem Sound.not_admissible_after : ∀ {j : Journal F} {l : List (Event F)}, Sound C j →
    (∀ e' ∈ l, place e ≤ place e') → ¬ Admissible C trust j e →
    ¬ Admissible C trust (accept_all C trust j l).1 e
  | j, [], _, _, hno => hno
  | j, e' :: l, h, hle, hno => by
      have hrest : ∀ x ∈ l, place e ≤ place x := fun x hx => hle x (List.mem_cons_of_mem _ hx)
      rw [accept_all]
      rcases h.accept_cases trust e' with ⟨-, hacc⟩ | ⟨-, -, hacc⟩ | ⟨hadm, hfits, hacc⟩
      · rw [hacc]
        exact h.not_admissible_after hrest hno
      · rw [hacc]
        exact hno
      · rw [hacc]
        refine (h.stored hadm hfits).not_admissible_after hrest fun hnow => hno ?_
        exact Admissible.of_stored (hle e' List.mem_cons_self) hadm hnow

/-- An event that was stored is not the next one. -/
theorem not_admissible_stored (hadm : Admissible C trust j e) :
    ¬ Admissible C trust (Journal.stored j e) e := by
  intro hnow
  have hseq := hadm.follows.seq
  have hseq' := hnow.follows.seq
  rw [log_stored, if_pos rfl, List.length_append, List.length_singleton] at hseq'
  push_cast at hseq'
  omega

/-- After a sorted batch went through, none of it is admissible. -/
theorem Sound.refuses_all : ∀ {j : Journal F} {l : List (Event F)}, Sound C j →
    l.Pairwise (fun a b => place a ≤ place b) → (accept_all C trust j l).2 ≠ none →
    ∀ e ∈ l, ¬ Admissible C trust (accept_all C trust j l).1 e
  | j, a :: l, h, hsorted, hok, e, he => by
      obtain ⟨hfirst, hsorted⟩ := List.pairwise_cons.mp hsorted
      rw [accept_all] at hok ⊢
      rcases h.accept_cases trust a with ⟨hno, hacc⟩ | ⟨-, -, hacc⟩ | ⟨hadm, hfits, hacc⟩
      · rw [hacc] at hok ⊢
        have hok : (accept_all C trust j l).2 ≠ none := fun hnone => hok (by
          dsimp only
          rw [hnone]
          rfl)
        rcases List.mem_cons.mp he with rfl | he
        · exact h.not_admissible_after hfirst hno
        · exact h.refuses_all hsorted hok e he
      · rw [hacc] at hok
        exact absurd rfl hok
      · rw [hacc] at hok ⊢
        have hok : (accept_all C trust (Journal.stored j a) l).2 ≠ none := fun hnone => hok (by
          dsimp only
          rw [hnone]
          rfl)
        have h' := h.stored hadm hfits
        rcases List.mem_cons.mp he with rfl | he
        · exact h'.not_admissible_after hfirst (not_admissible_stored hadm)
        · exact h'.refuses_all hsorted hok e he

/-- A batch of which nothing is admissible is passed over. -/
theorem Sound.accept_all_of_not (h : Sound C j) : ∀ {l : List (Event F)},
    (∀ e ∈ l, ¬ Admissible C trust j e) → accept_all C trust j l = (j, some 0)
  | [], _ => rfl
  | e :: l, hno => by
      rw [accept_all, h.accept_of_not (hno e List.mem_cons_self)]
      dsimp only
      rw [h.accept_all_of_not fun x hx => hno x (List.mem_cons_of_mem _ hx)]
      rfl

/-- A batch that raised raises again, and changes nothing more. -/
theorem Sound.raises_again : ∀ {j : Journal F} {l : List (Event F)}, Sound C j →
    l.Pairwise (fun a b => place a ≤ place b) → (accept_all C trust j l).2 = none →
    accept_all C trust (accept_all C trust j l).1 l = ((accept_all C trust j l).1, none)
  | j, [], _, _, hraise => by cases hraise
  | j, a :: l, h, hsorted, hraise => by
      obtain ⟨hfirst, hsorted⟩ := List.pairwise_cons.mp hsorted
      rw [accept_all] at hraise
      rcases h.accept_cases trust a with ⟨hno, hacc⟩ | ⟨-, -, hacc⟩ | ⟨hadm, hfits, hacc⟩
      · rw [hacc] at hraise
        have hagain := h.raises_again hsorted (Option.map_eq_none_iff.mp hraise)
        have hsound := h.after_all trust l
        have hfirst := hsound.accept_of_not (h.not_admissible_after hfirst hno)
        have heq : (accept_all C trust j (a :: l)).1 = (accept_all C trust j l).1 := by
          rw [accept_all, hacc]
        rw [heq, accept_all, hfirst]
        dsimp only
        rw [hagain]
        rfl
      · have heq : accept_all C trust j (a :: l) = (j, none) := by rw [accept_all, hacc]
        rw [heq]
        exact heq
      · rw [hacc] at hraise
        have h' := h.stored hadm hfits
        have hagain := h'.raises_again hsorted (Option.map_eq_none_iff.mp hraise)
        have hsound := h'.after_all trust l
        have hfirst := hsound.accept_of_not (h'.not_admissible_after hfirst (not_admissible_stored hadm))
        have heq : (accept_all C trust j (a :: l)).1 =
            (accept_all C trust (Journal.stored j a) l).1 := by
          rw [accept_all, hacc]
        rw [heq, accept_all, hfirst]
        dsimp only
        rw [hagain]
        rfl

end

/-! ## What `verify` finds -/

section

variable {C} {D : Decoder C} {j j' : Journal F} {author : String}

theorem Chained.seq_inj : ∀ {n : ℕ} {prev : String} {l : List (Event F)}, Chained C author n prev l →
    ∀ a ∈ l, ∀ b ∈ l, a.seq = b.seq → a = b
  | n, prev, x :: l, h, a, ha, b, hb, hab => by
      have hx := h.2.2.1.seq
      have hbounds := h.2.2.2.bounds
      rcases List.mem_cons.mp ha with rfl | ha
      · rcases List.mem_cons.mp hb with rfl | hb
        · rfl
        · have := (hbounds b hb).1
          omega
      · rcases List.mem_cons.mp hb with rfl | hb
        · have := (hbounds a (by assumption)).1
          omega
        · exact h.2.2.2.seq_inj a ha b hb hab

theorem Chained.nodup {n : ℕ} {prev : String} {l : List (Event F)} (h : Chained C author n prev l) :
    l.Nodup := by
  induction l generalizing n prev with
  | nil => exact List.nodup_nil
  | cons e l ih =>
      obtain ⟨-, -, hfollows, hrest⟩ := h
      refine List.nodup_cons.mpr ⟨fun he => ?_, ih hrest⟩
      have hseq := hfollows.seq
      have hbound := (hrest.bounds e he).1
      omega

/-- The scheme, with the decoder of `verify`. -/
def lax (C : Crypto) (D : Decoder C) : Crypto := { C with b64decode := D.b64decode }

theorem Genuine.lax {e : Event F} (h : Genuine C e) : Genuine (lax C D) e where
  hash := h.hash
  signed := by
    obtain ⟨pub, sig, hpub, hsig, hverify⟩ := h.signed
    exact ⟨pub, sig, hpub, D.agrees _ _ hsig, hverify⟩

theorem Chained.lax : ∀ {n : ℕ} {prev : String} {l : List (Event F)}, Chained C author n prev l →
    Chained (lax C D) author n prev l
  | _, _, [], _ => trivial
  | _, _, _ :: _, ⟨hauthor, hgenuine, hfollows, hrest⟩ => ⟨hauthor, hgenuine.lax, hfollows, hrest.lax⟩

/-- The checks of one author's rows pass just when the rows are a chain. -/
theorem check_rows_eq_none {pub : List UInt8} (hpub : C.publicKey author = some pub) :
    ∀ {n : ℕ} {prev : String} {l : List (Event F)}, (∀ e ∈ l, e.author = author) →
    (check_rows C D author pub n prev l = none ↔ Chained (Journal.lax C D) author n prev l)
  | _, _, [], _ => ⟨fun _ => trivial, fun _ => rfl⟩
  | n, prev, e :: l, hauthor => by
      have he := hauthor e List.mem_cons_self
      have ih : check_rows C D author pub (n + 1) e.entry_hash l = none ↔
          Chained (Journal.lax C D) author (n + 1) e.entry_hash l :=
        check_rows_eq_none hpub fun x hx => hauthor x (List.mem_cons_of_mem _ hx)
      rw [check_rows, Chained, ← ih]
      constructor
      · intro h
        split_ifs at h with hseq hprev hhash
        rw [not_not] at hseq hprev hhash
        cases hsig : D.b64decode e.sig with
        | none => rw [hsig] at h; cases h
        | some sig =>
            rw [hsig] at h
            dsimp only at h
            split_ifs at h with hverify
            rw [Bool.not_eq_true, Bool.not_eq_false'] at hverify
            exact ⟨he, ⟨hhash, pub, sig, he ▸ hpub, hsig, hverify⟩, ⟨hseq, hprev⟩, h⟩
      · rintro ⟨-, ⟨hhash, pub', sig, hpub', hsig, hverify⟩, ⟨hseq, hprev⟩, hrest⟩
        have heq : pub' = pub := by
          rw [he] at hpub'
          exact Option.some.inj (hpub'.symm.trans hpub)
        have hsig : D.b64decode e.sig = some sig := hsig
        have hverify : C.verify pub (canonical (payload_value e.toPayload)) sig = true := heq ▸ hverify
        have hhash : e.entry_hash = entry_hash C e.toPayload := hhash
        rw [if_neg (not_not.mpr hseq), if_neg (not_not.mpr hprev), if_neg (not_not.mpr hhash), hsig]
        dsimp only
        rw [hverify, if_neg (by decide)]
        exact hrest

theorem Chained.eq_of_perm {n : ℕ} {prev : String} {l l' : List (Event F)}
    (h : Chained C author n prev l) (hperm : l'.Perm l) (hsorted : l'.Pairwise fun a b => a.seq ≤ b.seq) :
    l' = l := by
  refine @List.Perm.eq_of_pairwise _ (fun a b => a.seq ≤ b.seq) _ _ ?_ hsorted h.sorted hperm
  intro a b ha hb hab hba
  exact h.seq_inj a (hperm.mem_iff.mp ha) b hb (le_antisymm hab hba)

/-- `verify` finds nothing just when every author's rows are a chain. -/
theorem verify_iff : verify C D j = none ↔
    ∀ author, Chained (Journal.lax C D) author 0 GENESIS (j.select author) := by
  have hgroup : ∀ author, Chained (Journal.lax C D) author 0 GENESIS (j.group author) ↔
      Chained (Journal.lax C D) author 0 GENESIS (j.select author) := by
    intro author
    have hperm := group_perm j author
    constructor
    · intro h
      rw [h.eq_of_perm hperm.symm (List.pairwise_insertionSort _ _)]
      exact h
    · intro h
      rw [h.eq_of_perm hperm (group_sorted j author)]
      exact h
  have hauthors : ∀ (author : String) (e : Event F), e ∈ j.group author → e.author = author := by
    intro author e he
    rw [group, List.mem_filter, decide_eq_true_eq] at he
    exact he.2
  simp only [← hgroup]
  rw [verify, List.findSome?_eq_none_iff]
  constructor
  · intro h author
    by_cases hnil : j.group author = []
    · rw [hnil]
      trivial
    · have hitem := h (author, j.group author) (mem_by_author.mpr ⟨rfl, hnil⟩)
      dsimp only at hitem
      cases hpub : C.publicKey author with
      | none => rw [hpub] at hitem; cases hitem
      | some pub =>
          rw [hpub] at hitem
          exact (check_rows_eq_none hpub (hauthors author)).mp hitem
  · rintro h ⟨author, rows⟩ hitem
    obtain ⟨rfl, hnil⟩ := mem_by_author.mp hitem
    have hchain := h author
    dsimp only
    cases hpub : C.publicKey author with
    | none =>
        obtain ⟨a, l, hl⟩ := List.exists_cons_of_ne_nil hnil
        rw [hl] at hchain
        obtain ⟨hauthor, hgenuine, -, -⟩ := hchain
        obtain ⟨pub, -, hpub', -⟩ := hgenuine.signed
        have hpub' : C.publicKey a.author = some pub := hpub'
        rw [hauthor, hpub] at hpub'
        cases hpub'
    | some pub => exact (check_rows_eq_none hpub (hauthors author)).mpr hchain

theorem Sound.verify_eq (h : Sound C j) (D : Decoder C) : verify C D j = none := by
  refine verify_iff.mpr fun author => ?_
  rw [h.select_eq]
  exact (h.chained author).lax

/-- Two chains of one length whose last hashes agree hold the same payloads. -/
theorem Chained.payloads_eq : ∀ {l l' : List (Event F)},
    Chained C author 0 GENESIS l → Chained C author 0 GENESIS l' → l.length = l'.length →
    lastHash GENESIS l = lastHash GENESIS l' →
    (∀ e ∈ l, ∀ e' ∈ l', entry_hash C e.toPayload = entry_hash C e'.toPayload →
      e.toPayload = e'.toPayload) →
    l.map (·.toPayload) = l'.map (·.toPayload) := by
  intro l
  induction l using List.reverseRecOn with
  | nil =>
      intro l' _ _ hlen _ _
      rw [List.length_nil] at hlen
      rw [List.eq_nil_of_length_eq_zero hlen.symm]
  | append_singleton l e ih =>
      intro l' h h' hlen hhash hcollision
      rcases List.eq_nil_or_concat l' with rfl | ⟨m, e', rfl⟩
      · simp at hlen
      rw [List.concat_eq_append] at h' hlen hhash hcollision ⊢
      obtain ⟨hl, -, hgenuine, hfollows⟩ := chained_concat.mp h
      obtain ⟨hm, -, hgenuine', hfollows'⟩ := chained_concat.mp h'
      rw [lastHash_concat, lastHash_concat, hgenuine.hash, hgenuine'.hash] at hhash
      have hpayload := hcollision e (by simp) e' (by simp) hhash
      have hprev : lastHash GENESIS l = lastHash GENESIS m := by
        rw [← hfollows.prev_hash, ← hfollows'.prev_hash, hpayload]
      have hrest := ih hl hm (by simpa using hlen) hprev fun a ha b hb =>
        hcollision a (List.mem_append_left _ ha) b (List.mem_append_left _ hb)
      rw [List.map_append, List.map_append, hrest, List.map_singleton, List.map_singleton, hpayload]

theorem Chained.head_select (h : Chained C author 0 GENESIS (j.select author)) :
    j.head author = (((j.select author).length : ℤ), lastHash GENESIS (j.select author)) := by
  rw [head]
  rcases List.eq_nil_or_concat (j.select author) with hnil | ⟨l, e, hl⟩
  · rw [hnil]
    rfl
  · rw [List.concat_eq_append] at hl
    rw [hl] at h ⊢
    obtain ⟨-, -, -, hfollows⟩ := chained_concat.mp h
    rw [List.getLast?_concat, lastHash_concat, List.length_append, List.length_singleton]
    simp [hfollows.seq]

/-- The head of a chain stands for all of it: two tables that verify and have
the same head for an author hold the same history of that author, unless two
of their events collide under the hash. -/
theorem history_of_head (D : Decoder C) (h : verify C D j = none) (h' : verify C D j' = none)
    (hhead : j.head author = j'.head author)
    (hcollision : ∀ e ∈ j.select author, ∀ e' ∈ j'.select author,
      entry_hash C e.toPayload = entry_hash C e'.toPayload → e.toPayload = e'.toPayload) :
    (j.select author).map (·.toPayload) = (j'.select author).map (·.toPayload) := by
  have hchain := verify_iff.mp h author
  have hchain' := verify_iff.mp h' author
  rw [hchain.head_select, hchain'.head_select] at hhead
  obtain ⟨hlen, hhash⟩ := Prod.mk.inj hhead
  exact hchain.payloads_eq hchain' (Int.ofNat.inj hlen) hhash hcollision

end

end

/-! ## One node -/

namespace OneNode

local instance : FloatCodec Unit := ⟨fun _ => none, fun _ => []⟩

def signer (did : String) : Signer .lenient where
  did := did
  sign _ := ""
  key := []
  key_of_did := rfl
  verifies _ := ⟨[], rfl, rfl⟩

def strict : Decoder .lenient := ⟨Crypto.lenient.b64decode, fun _ _ h => h⟩

def written : Journal Unit := run .lenient [.append (signer "a") "note" .null ()]

def noted : Event Unit := signedEvent (signer "a") "note" .null () empty

theorem select_written : written.select "a" = [noted] := rfl

theorem history_of_head_written :
    (written.select "a").map (·.toPayload) = (written.select "a").map (·.toPayload) :=
  history_of_head strict ((sound_of_run _).verify_eq strict) ((sound_of_run _).verify_eq strict) rfl (by
    rw [select_written]
    intro e he e' he' _
    rw [List.mem_singleton.mp he, List.mem_singleton.mp he'])

end OneNode

end Journal

end Secdogie.Citadel
