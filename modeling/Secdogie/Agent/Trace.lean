/-
# `Secdogie.Agent.Trace` — the hash-chained log of what the agent did

Every entry commits to the one before it, so the hash of the last is a
commitment to the whole history.  Recording takes several steps, the sequence
number, the hash, the list and head, the file; a step may fail after others are
done.

`trace_evident`: in a run whose records all hash and are written whole, the file
verifies with the head of the trace, and whatever verifies with that head is
what was recorded.  `record_after_raise`: a record that raises takes a sequence
number, and the file of the next one is refused.
-/
import Secdogie.Lib.JsonText
import Secdogie.Lib.TextFile
import Secdogie.Agent.Action

namespace Secdogie.Agent

open Secdogie.Json

/-! ## Texts as bytes -/

/-- It is no surrogate. -/
def isScalar (c : Nat) : Bool := decide (c < 0xd800 ∨ 0xdfff < c ∧ c < 0x110000)

/-- `s.encode("utf-8")`; `none` when it raises -/
def encode (s : Str) : Option ByteArray :=
  if s.all isScalar then some (String.ofList (s.map Char.ofNat)).toUTF8 else none

/-- `b.decode("utf-8")` -/
def decode (b : ByteArray) : Option Str :=
  (String.fromUTF8? b).map (fun t => t.toList.map Char.toNat)

theorem toNat_ofNat {c : Nat} (h : isScalar c = true) : (Char.ofNat c).toNat = c := by
  have hvalid : c.isValidChar := by
    rw [isScalar, decide_eq_true_eq] at h
    rcases h with h | h
    · exact .inl h
    · exact .inr h
  rw [Char.ofNat, dif_pos hvalid]
  exact Char.toNat_ofNatAux hvalid

theorem map_toNat_ofNat {s : Str} (h : s.all isScalar = true) :
    (s.map Char.ofNat).map Char.toNat = s := by
  rw [List.all_eq_true] at h
  rw [List.map_map]
  exact (List.map_congr_left fun c hc => toNat_ofNat (h c hc)).trans (List.map_id s)

theorem encode_all {s : Str} {b : ByteArray} (h : encode s = some b) : s.all isScalar = true := by
  rw [encode] at h
  split_ifs at h with hs
  exact hs

theorem encode_of_all {s : Str} (h : s.all isScalar = true) : ∃ b, encode s = some b :=
  ⟨_, if_pos h⟩

/-- What is appended is read after what was there. -/
theorem decode_append {b c : ByteArray} {s t : Str} (hb : decode b = some s)
    (hc : encode t = some c) : decode (b ++ c) = some (s ++ t) := by
  have hall := encode_all hc
  rw [encode, if_pos hall] at hc
  obtain rfl := Option.some.inj hc
  obtain ⟨u, hu, rfl⟩ := Option.map_eq_some_iff.mp hb
  rw [decode, fromUTF8?_append, hu]
  simp only [Option.map_some, String.toList_append, List.map_append, String.toList_ofList]
  rw [map_toNat_ofNat hall]

theorem decode_empty : decode .empty = some [] := by
  have h := fromUTF8?_toUTF8 ""
  have hempty : "".toUTF8 = .empty := rfl
  rw [hempty] at h
  rw [decode, h]
  rfl

theorem decode_encode {s : Str} {b : ByteArray} (h : encode s = some b) : decode b = some s := by
  have happend := decode_append decode_empty h
  rwa [ByteArray.empty_append] at happend

theorem encode_inj {s t : Str} {b : ByteArray} (hs : encode s = some b) (ht : encode t = some b) :
    s = t :=
  Option.some.inj ((decode_encode hs).symm.trans (decode_encode ht))

/-- Where a text file breaks its lines. -/
inductive Newline where
  | lf
  | crlf

/-- `os.linesep` -/
def Newline.linesep : Newline → Str
  | .lf => [0x0a]
  | .crlf => [0x0d, 0x0a]

/-- What a text file writes for a text. -/
def Newline.written (nl : Newline) (s : Str) : Str :=
  s.flatMap (fun c => if c = 0x0a then nl.linesep else [c])

/-- Universal newlines. -/
def universal : Str → Str
  | [] => []
  | c :: s =>
      if c = 0x0d then
        match s with
        | [] => [0x0a]
        | d :: s => if d = 0x0a then 0x0a :: universal s else 0x0a :: universal (d :: s)
      else c :: universal s

def isLf (c : Nat) : Bool := c = 0x0a

/-- The lines of a file that is read as text. -/
def fileLines (s : Str) : List Str :=
  (closedLines isLf (universal s)).map (· ++ [0x0a]) ++
    (if openLine isLf (universal s) = [] then [] else [openLine isLf (universal s)])

/-! ## The entries -/

/-- `hashlib.sha256(b).hexdigest()` -/
structure Sha256 where
  hexdigest : ByteArray → Str
  hex : ∀ b, ∀ c ∈ hexdigest b, 0x20 < c ∧ c < 0x7f

/-- The anchor of the first entry. -/
def GENESIS : Str := List.replicate 64 '0'.toNat

def PAYLOAD_KEYS : List Str :=
  [.of "seq", .of "ts", .of "frame_sha256", .of "action", .of "reasoning", .of "result",
    .of "prev_hash"]

structure TraceEntry where
  seq : Nat
  /-- the clock, as its token -/
  ts : Str
  frame_sha256 : Str
  action : Json
  reasoning : Json
  result : Str
  prev_hash : Str
  entry_hash : Str

namespace TraceEntry

def payload (e : TraceEntry) : Dict :=
  [(.of "seq", .num (decimal e.seq)), (.of "ts", .num e.ts),
    (.of "frame_sha256", .str e.frame_sha256), (.of "action", e.action),
    (.of "reasoning", e.reasoning), (.of "result", .str e.result),
    (.of "prev_hash", .str e.prev_hash)]

def to_dict (e : TraceEntry) : Json := .obj (e.payload ++ [(.of "entry_hash", .str e.entry_hash)])

end TraceEntry

/-- A call of `record`: its arguments, the clock, and of the bytes of its line
how many reach the file; `none` if all do. -/
structure Call where
  frame_bytes : ByteArray
  action : Json
  reasoning : Json
  result : Str
  clock : Str
  stopped : Option Nat

structure ExecutionTrace where
  entries : List TraceEntry
  head : Str
  seq : Nat
  /-- `none` without a path -/
  file : Option ByteArray

/-- Every run starts with a fresh file. -/
def ExecutionTrace.new (path : Bool) : ExecutionTrace :=
  { entries := [], head := GENESIS, seq := 0, file := if path then some .empty else none }

section

variable (R : Numerals) (H : Sha256) (nl : Newline) (room : Nat)

/-- What is hashed of a payload: tight, with sorted keys, in UTF-8. -/
def blob (payload : Dict) : Option ByteArray :=
  (dumps R [] room (sorted (.obj payload))).bind encode

def hash_payload (payload : Dict) : Option Str := (blob R room payload).map H.hexdigest

/-- The bytes of an entry's line. -/
def lineBytes (e : TraceEntry) : Option ByteArray :=
  (dumps R [0x20] room e.to_dict).bind (fun s => encode (nl.written (s ++ [0x0a])))

/-- The entry a call makes, before it is hashed. -/
def ExecutionTrace.next (t : ExecutionTrace) (c : Call) : TraceEntry :=
  { seq := t.seq + 1
    ts := c.clock
    frame_sha256 := H.hexdigest c.frame_bytes
    action := c.action
    reasoning := c.reasoning
    result := c.result
    prev_hash := t.head
    entry_hash := [] }

/-- `record`: the trace after it, and the entry it returns; `none` when it
raises. -/
def ExecutionTrace.record (t : ExecutionTrace) (c : Call) : ExecutionTrace × Option TraceEntry :=
  let t' := { t with seq := t.seq + 1 }
  match hash_payload R H room (t.next H c).payload with
  | none => (t', none)
  | some h =>
      let entry := { t.next H c with entry_hash := h }
      let t' := { t' with entries := t'.entries ++ [entry], head := h }
      match t.file with
      | none => (t', some entry)
      | some file =>
          match lineBytes R nl room entry with
          | none => (t', none)
          | some line =>
              match c.stopped with
              | none => ({ t' with file := some (file ++ line) }, some entry)
              | some n => ({ t' with file := some (file ++ line.extract 0 n) }, none)

/-- A run of calls; one that raises is followed by the next. -/
def ExecutionTrace.run (t : ExecutionTrace) (cs : List Call) : ExecutionTrace :=
  cs.foldl (fun t c => (t.record R H nl room c).1) t

/-! ## Verifying -/

/-- Why entries are refused. -/
inductive Broken where
  | missing (i : Nat)
  | order (i : Nat) (seq : Json)
  | chain (i : Nat)
  | edited (i : Nat)
  /-- an exception -/
  | raises

/-- `k in e`; `none` when it raises -/
def contains (e : Json) (k : Str) : Option Bool :=
  match e with
  | .obj d => some (get d k).isSome
  | .arr items => some (items.any (fun v => match v with | .str s => decide (s = k) | _ => false))
  | .str s => some (decide (k <:+: s))
  | _ => none

/-- `any(k not in e for k in ks)` -/
def lacks (e : Json) : List Str → Option Bool
  | [] => some false
  | k :: ks =>
      match contains e k with
      | none => none
      | some false => some true
      | some true => lacks e ks

/-- `e[k]`, where the key is there. -/
def getItem (e : Json) (k : Str) : Option Json :=
  match e with
  | .obj d => get d k
  | _ => none

/-- `v == n` -/
def equalsInt (v : Json) (n : Nat) : Bool :=
  match v with
  | .num t => R.equals t n
  | .bool b => decide (n = b.toNat)
  | _ => false

def isText (v : Json) (s : Str) : Bool :=
  match v with
  | .str t => decide (t = s)
  | _ => false

/-- `{k: e[k] for k in _PAYLOAD_KEYS}`, where they are all there. -/
def payloadOf (d : Dict) : Dict := PAYLOAD_KEYS.filterMap (fun k => (get d k).map (fun v => (k, v)))

/-- One turn of the loop: the hash of the entry, to which the next one links. -/
def verifyEntry (i : Nat) (prev : Str) (e : Json) : Except Broken Str :=
  match lacks e (PAYLOAD_KEYS ++ [.of "entry_hash"]) with
  | none => .error .raises
  | some true => .error (.missing i)
  | some false =>
      match getItem e (.of "seq"), getItem e (.of "prev_hash"), getItem e (.of "entry_hash") with
      | some seq, some prev_hash, some entry_hash =>
          if equalsInt R seq (i + 1) = false then .error (.order i seq)
          else if isText prev_hash prev = false then .error (.chain i)
          else
            match e with
            | .obj d =>
                match hash_payload R H room (payloadOf d) with
                | none => .error .raises
                | some h => if isText entry_hash h then .ok h else .error (.edited i)
            | _ => .error .raises
      | _, _, _ => .error .raises

def verifyFrom : Nat → Str → List Json → Except Broken Str
  | _, prev, [] => .ok prev
  | i, prev, e :: es =>
      match verifyEntry R H room i prev e with
      | .error b => .error b
      | .ok h => verifyFrom (i + 1) h es

/-- The loop of `verify_entries`, with the last hash. -/
def verify_entries (es : List Json) : Except Broken Str := verifyFrom R H room 0 GENESIS es

/-- A list of what every line holds; `none` when reading one raises. -/
def readAll : List Str → Option (List Json)
  | [] => some []
  | line :: lines =>
      if (strip isSpace line).isEmpty then readAll lines
      else
        match loads room line with
        | .error _ => none
        | .ok v => (readAll lines).map (held R v :: ·)

def load (file : ByteArray) : Option (List Json) :=
  (decode file).bind (fun s => readAll R room (fileLines s))

def verify_file (file : ByteArray) : Except Broken Str :=
  match load R room file with
  | none => .error .raises
  | some es => verify_entries R H room es

variable {R H nl room}

/-! ## What verifying checks -/

/-- What is checked of one entry. -/
structure Link (R : Numerals) (H : Sha256) (room i : Nat) (prev : Str) (d : Dict) (h : Str) :
    Prop where
  all : ∀ k ∈ PAYLOAD_KEYS, ∃ v, get d k = some v
  seq : ∃ v, get d (.of "seq") = some v ∧ equalsInt R v (i + 1) = true
  prev_hash : get d (.of "prev_hash") = some (.str prev)
  entry_hash : get d (.of "entry_hash") = some (.str h)
  hash : hash_payload R H room (payloadOf d) = some h

theorem lacks_obj {d : Dict} {ks : List Str} :
    lacks (.obj d) ks = some false ↔ ∀ k ∈ ks, ∃ v, get d k = some v := by
  induction ks with
  | nil => exact ⟨fun _ => nofun, fun _ => rfl⟩
  | cons k ks ih =>
      rw [List.forall_mem_cons, lacks, contains]
      cases hk : get d k with
      | none => simp
      | some v => simpa using ih

theorem isText_iff {v : Json} {s : Str} : isText v s = true ↔ v = .str s := by
  rw [isText.eq_def]
  split
  · simp
  · next hno => exact ⟨nofun, fun h => absurd h (hno s)⟩

theorem verifyEntry_ok {i : Nat} {prev h : Str} {e : Json}
    (hok : verifyEntry R H room i prev e = .ok h) : ∃ d, e = .obj d ∧ Link R H room i prev d h := by
  rw [verifyEntry] at hok
  split at hok
  · cases hok
  · cases hok
  next hlacks =>
  split at hok
  · next seq prev_hash entry_hash hseq hprev hentry =>
      split_ifs at hok with horder hchain
      cases e with
      | obj d =>
          dsimp only at hok
          split at hok
          · cases hok
          · next h' hhash =>
              split_ifs at hok with hedited
              obtain rfl := Except.ok.inj hok
              rw [isText_iff] at hedited
              rw [Bool.not_eq_false, isText_iff] at hchain
              rw [Bool.not_eq_false] at horder
              subst hedited hchain
              rw [lacks_obj] at hlacks
              exact ⟨d, rfl, fun k hk => hlacks k (List.mem_append_left _ hk), ⟨seq, hseq, horder⟩,
                hprev, hentry, hhash⟩
      | null => cases hok
      | bool b => cases hok
      | num t => cases hok
      | str s => cases hok
      | arr items => cases hok
  · cases hok

theorem Link.verifyEntry {i : Nat} {prev h : Str} {d : Dict} (hlink : Link R H room i prev d h) :
    verifyEntry R H room i prev (.obj d) = .ok h := by
  obtain ⟨seq, hseq, horder⟩ := hlink.seq
  have hlacks : lacks (.obj d) (PAYLOAD_KEYS ++ [.of "entry_hash"]) = some false := by
    rw [lacks_obj]
    intro k hk
    rcases List.mem_append.mp hk with hk | hk
    · exact hlink.all k hk
    · rw [List.mem_singleton.mp hk]
      exact ⟨_, hlink.entry_hash⟩
  have hgseq : getItem (.obj d) (.of "seq") = some seq := hseq
  have hgprev : getItem (.obj d) (.of "prev_hash") = some (.str prev) := hlink.prev_hash
  have hgentry : getItem (.obj d) (.of "entry_hash") = some (.str h) := hlink.entry_hash
  rw [Agent.verifyEntry, hlacks, hgseq, hgprev, hgentry]
  dsimp only
  rw [if_neg (by rw [horder]; decide), if_neg (by rw [isText_iff.mpr rfl]; decide), hlink.hash]
  dsimp only
  rw [if_pos (isText_iff.mpr rfl)]

theorem verifyFrom_concat {i : Nat} {prev h : Str} {es : List Json} {e : Json} :
    verifyFrom R H room i prev (es ++ [e]) = .ok h ↔
      ∃ p, verifyFrom R H room i prev es = .ok p ∧ verifyEntry R H room (i + es.length) p e = .ok h := by
  induction es generalizing i prev with
  | nil =>
      rw [List.nil_append, verifyFrom, verifyFrom]
      cases hentry : verifyEntry R H room i prev e with
      | error b => simp [hentry]
      | ok h' => simp [hentry, verifyFrom]
  | cons e' es ih =>
      rw [List.cons_append, verifyFrom, verifyFrom]
      cases hentry : verifyEntry R H room i prev e' with
      | error b => simp
      | ok h' =>
          dsimp only
          rw [ih, List.length_cons, Nat.add_right_comm, Nat.add_assoc]

/-! ## Equal hashes -/

/-- Two entries agree on every field that is hashed, up to the order of members. -/
def Agree (e e' : Json) : Prop :=
  ∀ k ∈ PAYLOAD_KEYS, ∃ v v', getItem e k = some v ∧ getItem e' k = some v' ∧ sorted v = sorted v'

/-- No two different payloads of the lists have one hash. -/
def NoCollision (R : Numerals) (H : Sha256) (room : Nat) (es es' : List Json) : Prop :=
  ∀ d d' b b', .obj d ∈ es → .obj d' ∈ es' → blob R room (payloadOf d) = some b →
    blob R room (payloadOf d') = some b' → H.hexdigest b = H.hexdigest b' → b = b'

theorem mem_payloadOf {d : Dict} {k : Str} {v : Json} :
    (k, v) ∈ payloadOf d ↔ k ∈ PAYLOAD_KEYS ∧ get d k = some v := by
  rw [payloadOf, List.mem_filterMap]
  constructor
  · rintro ⟨k', hk', heq⟩
    obtain ⟨v', hv', heq⟩ := Option.map_eq_some_iff.mp heq
    obtain ⟨rfl, rfl⟩ := Prod.mk.inj heq
    exact ⟨hk', hv'⟩
  · rintro ⟨hk, hv⟩
    exact ⟨k, hk, by rw [hv]; rfl⟩

theorem get_mem {d : Dict} {k : Str} {v : Json} (h : get d k = some v) : (k, v) ∈ d := by
  obtain ⟨m, hm, rfl⟩ := Option.map_eq_some_iff.mp h
  have hk := List.find?_some hm
  have hkey : m.1 = k := of_decide_eq_true hk
  rw [← hkey]
  exact List.mem_of_find?_eq_some hm

theorem held_payloadOf {d : Dict} (h : Held R (.obj d)) : Held R (.obj (payloadOf d)) := by
  refine ⟨?_, ?_⟩
  · have hsub : (payloadOf d).map Prod.fst = PAYLOAD_KEYS.filter (fun k => (get d k).isSome) := by
      rw [payloadOf, List.map_filterMap, ← List.filterMap_eq_filter]
      congr 1
      funext k
      cases hk : get d k with
      | none => simp [Option.guard, hk]
      | some v => simp [Option.guard, hk]
    rw [hsub]
    have hnd : PAYLOAD_KEYS.Nodup := by decide
    exact hnd.filter _
  · rw [heldMembers_iff]
    rintro ⟨k, v⟩ hm
    exact heldMembers_iff.mp h.2 (k, v) (get_mem (mem_payloadOf.mp hm).2)

/-- One hash, one payload. -/
theorem agree_of_hash {i i' : Nat} {prev prev' h : Str} {d d' : Dict} (hd : Held R (.obj d))
    (hd' : Held R (.obj d')) (hlink : Link R H room i prev d h)
    (hlink' : Link R H room i' prev' d' h)
    (hnoc : ∀ b b', blob R room (payloadOf d) = some b → blob R room (payloadOf d') = some b' →
      H.hexdigest b = H.hexdigest b' → b = b') : Agree (.obj d) (.obj d') := by
  obtain ⟨b, hb, hbh⟩ := Option.map_eq_some_iff.mp hlink.hash
  obtain ⟨b', hb', hbh'⟩ := Option.map_eq_some_iff.mp hlink'.hash
  have hbb := hnoc b b' hb hb' (hbh.trans hbh'.symm)
  subst hbb
  obtain ⟨s, hs, hsb⟩ := Option.bind_eq_some_iff.mp hb
  obtain ⟨s', hs', hsb'⟩ := Option.bind_eq_some_iff.mp hb'
  have hss := encode_inj hsb hsb'
  subst hss
  rw [dumps] at hs hs'
  split_ifs at hs with hfits
  split_ifs at hs' with hfits'
  have heq := sorted_eq_of_text (by rfl) (held_payloadOf hd) (held_payloadOf hd') hfits hfits'
    ((Option.some.inj hs).trans (Option.some.inj hs').symm)
  intro k hk
  obtain ⟨v, hv⟩ := hlink.all k hk
  obtain ⟨⟨k', v'⟩, hm', hkk, hvv⟩ := sorted_member heq (mem_payloadOf.mpr ⟨hk, hv⟩)
  dsimp only at hkk hvv
  subst hkk
  exact ⟨v, v', hv, (mem_payloadOf.mp hm').2, hvv.symm⟩

theorem sorted_str {v : Json} {s : Str} (h : sorted v = .str s) : v = .str s := by
  cases v with
  | str t => exact h
  | null => cases h
  | bool b => cases h
  | num t => cases h
  | arr items => cases h
  | obj ms => cases h

theorem sorted_num {v : Json} {t : Str} (h : sorted v = .num t) : v = .num t := by
  cases v with
  | num t => exact h
  | null => cases h
  | bool b => cases h
  | str t => cases h
  | arr items => cases h
  | obj ms => cases h

/-- Lists as long that verify with one last hash agree entry by entry, from the
last one back. -/
theorem verifyFrom_agree {es es' : List Json} (hlen : es.length = es'.length)
    (hheld : ∀ e ∈ es, Held R e) (hheld' : ∀ e ∈ es', Held R e) {h : Str}
    (hok : verifyFrom R H room 0 GENESIS es = .ok h)
    (hok' : verifyFrom R H room 0 GENESIS es' = .ok h) (hnoc : NoCollision R H room es es') :
    List.Forall₂ Agree es es' := by
  induction es using List.reverseRecOn generalizing es' h with
  | nil =>
      obtain rfl := List.eq_nil_of_length_eq_zero hlen.symm
      exact .nil
  | append_singleton es e ih =>
      rcases List.eq_nil_or_concat' es' with rfl | ⟨es', e', rfl⟩
      · rw [List.length_append] at hlen
        cases hlen
      · rw [List.length_append, List.length_append, List.length_singleton, List.length_singleton]
          at hlen
        obtain ⟨p, hp, hentry⟩ := verifyFrom_concat.mp hok
        obtain ⟨p', hp', hentry'⟩ := verifyFrom_concat.mp hok'
        obtain ⟨d, rfl, hlink⟩ := verifyEntry_ok hentry
        obtain ⟨d', rfl, hlink'⟩ := verifyEntry_ok hentry'
        have hmem : Json.obj d ∈ es ++ [.obj d] := by simp
        have hmem' : Json.obj d' ∈ es' ++ [.obj d'] := by simp
        have hagree := agree_of_hash (hheld _ hmem) (hheld' _ hmem') hlink hlink'
          (fun b b' => hnoc d d' b b' hmem hmem')
        have hpp : p = p' := by
          obtain ⟨v, v', hv, hv', hvv⟩ := hagree (.of "prev_hash") (by decide)
          have hv := Option.some.inj (hv.symm.trans hlink.prev_hash)
          have hv' := Option.some.inj (hv'.symm.trans hlink'.prev_hash)
          subst hv hv'
          exact Json.str.inj hvv
        subst hpp
        refine List.rel_append (ih (Nat.succ.inj hlen)
          (fun e he => hheld e (List.mem_append_left _ he))
          (fun e he => hheld' e (List.mem_append_left _ he)) hp hp'
          (fun d d' b b' hd hd' => hnoc d d' b b' (List.mem_append_left _ hd)
            (List.mem_append_left _ hd'))) (.cons hagree .nil)

/-! ## The file -/

/-- The line of an entry, as it is read. -/
def line (R : Numerals) (e : TraceEntry) : Str := text R [0x20] e.to_dict ++ [0x0a]

theorem written_spaced (nl : Newline) {s : Str} (h : ∀ c ∈ s, 0x20 ≤ c) (rest : Str) :
    universal (nl.written (s ++ [0x0a]) ++ rest) = s ++ 0x0a :: universal rest := by
  induction s with
  | nil =>
      cases nl with
      | lf =>
          change universal (0x0a :: rest) = _
          rw [universal.eq_def]
          rfl
      | crlf =>
          change universal (0x0d :: 0x0a :: rest) = _
          rw [universal.eq_def]
          rfl
  | cons c s ih =>
      have hc := h c List.mem_cons_self
      have hwritten : nl.written (c :: s ++ [0x0a]) = c :: nl.written (s ++ [0x0a]) := by
        rw [Newline.written, List.cons_append, List.flatMap_cons, if_neg (by omega)]
        rfl
      rw [hwritten, List.cons_append, universal.eq_def]
      dsimp only
      rw [if_neg (by omega), ih (fun d hd => h d (List.mem_cons_of_mem _ hd))]
      rfl

/-- An entry whose line is written and read. -/
structure Legible (R : Numerals) (room : Nat) (e : TraceEntry) : Prop where
  held : Held R e.to_dict
  fits : fits R room e.to_dict = true
  spelled : Spelled (fun c => isScalar c = true) e.to_dict

theorem Legible.spaced {e : TraceEntry} (h : Legible R room e) :
    ∀ c ∈ text R [0x20] e.to_dict, 0x20 ≤ c := by
  have hwritten : Written (fun c => isScalar c = true) (fun c => 0x20 ≤ c) [0x20] :=
    { plain := fun c hc _ => hc
      kept := fun c hc _ => hc
      pad := by decide }
  exact text_spelled hwritten _ _ h.fits h.spelled

theorem isScalar_plain {c : Nat} (h : c < 0x7f) : isScalar c = true :=
  decide_eq_true (.inl (by omega))

theorem linesep_scalar (nl : Newline) : ∀ c ∈ nl.linesep, isScalar c = true := by
  cases nl with
  | lf => decide
  | crlf => decide

theorem Legible.lineBytes {e : TraceEntry} (h : Legible R room e) :
    ∃ b, lineBytes R nl room e = some b ∧ encode (nl.written (line R e)) = some b := by
  have hwritten : Written (fun c => isScalar c = true) (fun c => isScalar c = true) [0x20] :=
    { plain := fun c _ hc => isScalar_plain hc
      kept := fun c _ hc => hc
      pad := by decide }
  have hscalar := text_spelled hwritten _ _ h.fits h.spelled
  have hall : (nl.written (line R e)).all isScalar = true := by
    rw [List.all_eq_true]
    intro c hc
    obtain ⟨c', hc', hcc⟩ := List.mem_flatMap.mp hc
    split_ifs at hcc with hlf
    · exact linesep_scalar nl c hcc
    · rw [List.mem_singleton.mp hcc]
      rcases List.mem_append.mp hc' with hc' | hc'
      · exact hscalar c' hc'
      · exact absurd (List.mem_singleton.mp hc') hlf
  obtain ⟨b, hencode⟩ := encode_of_all hall
  refine ⟨b, ?_, hencode⟩
  rw [Agent.lineBytes, dumps, if_pos h.fits]
  exact hencode

/-- What the entries are written as. -/
def fileText (R : Numerals) (nl : Newline) (entries : List TraceEntry) : Str :=
  entries.flatMap (fun e => nl.written (line R e))

theorem splitOnP_fileText {entries : List TraceEntry} (h : ∀ e ∈ entries, Legible R room e) :
    (universal (fileText R nl entries)).splitOnP isLf =
      entries.map (fun e => text R [0x20] e.to_dict) ++ [[]] := by
  induction entries with
  | nil => exact List.splitOnP_nil
  | cons e entries ih =>
      have he := (h e List.mem_cons_self).spaced
      have hlf : ∀ c ∈ text R [0x20] e.to_dict, isLf c = false := fun c hc => by
        have hle := he c hc
        rw [isLf, decide_eq_false_iff_not]
        omega
      have hsplit : universal (fileText R nl (e :: entries)) =
          text R [0x20] e.to_dict ++ 0x0a :: universal (fileText R nl entries) :=
        written_spaced nl he _
      rw [hsplit, List.splitOnP_append_cons_of_forall_mem hlf 0x0a rfl,
        ih (fun e' he' => h e' (List.mem_cons_of_mem _ he'))]
      rfl

theorem fileLines_fileText {entries : List TraceEntry} (h : ∀ e ∈ entries, Legible R room e) :
    fileLines (fileText R nl entries) = entries.map (line R) := by
  obtain ⟨hclosed, hopen⟩ := lines_of_splitOnP isLf (@splitOnP_fileText R nl room _ h)
  rw [fileLines, hclosed, hopen, if_pos rfl, List.append_nil, List.map_map]
  rfl

theorem strip_brace (s : Str) : strip isSpace ('\x7b'.toNat :: s) ≠ [] := by
  intro h
  rw [strip, List.reverse_eq_nil_iff, List.dropWhile_cons_of_neg (by decide),
    List.dropWhile_eq_nil_iff] at h
  have hspace := h '\x7b'.toNat (by simp)
  revert hspace
  decide

theorem readAll_lines {entries : List TraceEntry} (h : ∀ e ∈ entries, Legible R room e) :
    readAll R room (entries.map (line R)) = some (entries.map TraceEntry.to_dict) := by
  induction entries with
  | nil => rfl
  | cons e entries ih =>
      have he := h e List.mem_cons_self
      have hstrip : (strip isSpace (line R e)).isEmpty = false :=
        List.isEmpty_eq_false_iff.mpr (strip_brace _)
      have hloads : loads room (line R e) = .ok e.to_dict :=
        loads_obj (by decide) he.held he.fits (by decide)
      rw [List.map_cons, readAll, hstrip, if_neg (by decide), hloads]
      dsimp only
      rw [ih (fun e' he' => h e' (List.mem_cons_of_mem _ he')), held_eq _ he.held]
      rfl

/-- What was written is loaded. -/
theorem load_written {file : ByteArray} {entries : List TraceEntry}
    (hfile : decode file = some (fileText R nl entries))
    (h : ∀ e ∈ entries, Legible R room e) :
    load R room file = some (entries.map TraceEntry.to_dict) := by
  rw [load, hfile]
  change readAll R room (fileLines (fileText R nl entries)) = _
  rw [fileLines_fileText h, readAll_lines h]

/-! ## Recording -/

/-- The arguments of a call are JSON, and its clock a float. -/
structure Call.Valued (R : Numerals) (c : Call) : Prop where
  action : Held R c.action
  reasoning : Held R c.reasoning
  clock : R.prints c.clock = true ∧ R.repr c.clock = c.clock

/-- Nothing stops a call half-way: its strings have no surrogates, the encoder
has room for its values, its number is printed and its line is written whole. -/
structure Call.Whole (R : Numerals) (room seq : Nat) (c : Call) : Prop where
  action : Spelled (fun x => isScalar x = true) c.action
  reasoning : Spelled (fun x => isScalar x = true) c.reasoning
  result : ∀ x ∈ c.result, isScalar x = true
  room : ∃ r, room = r + 1 ∧ fits R r c.action = true ∧ fits R r c.reasoning = true
  number : R.prints (decimal (seq + 1)) = true
  written : c.stopped = none

theorem fits_num {t : Str} (r : Nat) (h : R.prints t = true) : fits R r (.num t) = true := by
  cases r <;> exact h

theorem fits_str (r : Nat) (s : Str) : fits R r (.str s) = true := by
  cases r <;> rfl

theorem payload_keys (e : TraceEntry) : e.payload.map Prod.fst = PAYLOAD_KEYS ∧
    (e.payload ++ [(Str.of "entry_hash", Json.str e.entry_hash)]).map Prod.fst =
      PAYLOAD_KEYS ++ [Str.of "entry_hash"] := ⟨rfl, rfl⟩

section

variable {t : ExecutionTrace} {c : Call} {seq : Nat} {prev h : Str}

/-- What holds of every value of a payload. -/
theorem forall_payload {P : Json → Prop} {e : TraceEntry} (hseq : P (.num (decimal e.seq)))
    (hts : P (.num e.ts)) (hframe : P (.str e.frame_sha256)) (haction : P e.action)
    (hreasoning : P e.reasoning) (hresult : P (.str e.result)) (hprev : P (.str e.prev_hash)) :
    ∀ m ∈ e.payload, P m.2 := by
  intro m hm
  simp only [TraceEntry.payload, List.mem_cons, List.not_mem_nil, or_false] at hm
  rcases hm with rfl | rfl | rfl | rfl | rfl | rfl | rfl
  · exact hseq
  · exact hts
  · exact hframe
  · exact haction
  · exact hreasoning
  · exact hresult
  · exact hprev

theorem spelled_key {k : Str} (h : k ∈ PAYLOAD_KEYS ++ [Str.of "entry_hash"]) :
    ∀ x ∈ k, isScalar x = true := by
  revert k
  decide

/-- Of a whole call, an entry is legible, whatever its hash. -/
theorem legible_next (hvalued : c.Valued R) (hwhole : c.Whole R room t.seq)
    (hhead : ∀ x ∈ t.head, isScalar x = true) (hh : ∀ x ∈ h, isScalar x = true) :
    Legible R room { t.next H c with entry_hash := h } ∧
      ∃ b, blob R room (t.next H c).payload = some b := by
  obtain ⟨r, rfl, haction, hreasoning⟩ := hwhole.room
  have hframe : ∀ x ∈ H.hexdigest c.frame_bytes, isScalar x = true :=
    fun x hx => isScalar_plain (H.hex _ x hx).2
  have hheld : ∀ m ∈ (t.next H c).payload, Held R m.2 :=
    forall_payload (P := Held R) (R.repr_decimal _ hwhole.number) hvalued.clock.2 trivial hvalued.action
      hvalued.reasoning trivial trivial
  have hfits : ∀ m ∈ (t.next H c).payload, fits R r m.2 = true :=
    forall_payload (P := fun v => fits R r v = true) (fits_num r hwhole.number)
      (fits_num r hvalued.clock.1) (fits_str r _) haction
      hreasoning (fits_str r _) (fits_str r _)
  have hspelled : ∀ m ∈ (t.next H c).payload,
      (∀ x ∈ m.1, isScalar x = true) ∧ Spelled (fun x => isScalar x = true) m.2 := by
    intro m hm
    refine ⟨spelled_key (List.mem_append_left _ ?_), ?_⟩
    · rw [← (payload_keys (t.next H c)).1]
      exact List.mem_map_of_mem hm
    · exact forall_payload (e := t.next H c) (P := Spelled (fun x => isScalar x = true)) trivial trivial
        hframe hwhole.action hwhole.reasoning hwhole.result hhead m hm
  have hnd : (PAYLOAD_KEYS ++ [Str.of "entry_hash"]).Nodup := by decide
  refine ⟨⟨⟨?_, ?_⟩, ?_, ?_⟩, ?_⟩
  · have hkeys := (payload_keys { t.next H c with entry_hash := h }).2
    rw [hkeys]
    exact hnd
  · rw [heldMembers_iff, List.forall_mem_append]
    exact ⟨hheld, by simp [Held]⟩
  · rw [TraceEntry.to_dict, fits, fitsMembers_iff, List.forall_mem_append]
    exact ⟨hfits, by simp [fits_str]⟩
  · rw [TraceEntry.to_dict, Spelled, spelledMembers_iff, List.forall_mem_append]
    refine ⟨hspelled, fun m hm => ?_⟩
    rw [List.mem_singleton.mp hm]
    exact ⟨spelled_key (List.mem_append_right _ List.mem_cons_self), hh⟩
  · have hfobj : fits R (r + 1) (sorted (.obj (t.next H c).payload)) = true :=
      fits_sorted _ _ (fitsMembers_iff.mpr hfits)
    have hsobj := spelled_sorted (.obj (t.next H c).payload) (spelledMembers_iff.mpr hspelled)
    have hwritten : Written (fun c => isScalar c = true) (fun c => isScalar c = true) [] :=
      { plain := fun c _ hc => isScalar_plain hc
        kept := fun c _ hc => hc
        pad := fun _ hc => by cases hc }
    have hall : (text R [] (sorted (.obj (t.next H c).payload))).all isScalar = true :=
      List.all_eq_true.mpr (text_spelled hwritten _ _ hfobj hsobj)
    obtain ⟨b, hb⟩ := encode_of_all hall
    refine ⟨b, ?_⟩
    rw [blob, dumps, if_pos hfobj]
    exact hb

theorem payloadOf_to_dict (e : TraceEntry) :
    payloadOf (e.payload ++ [(.of "entry_hash", .str e.entry_hash)]) = e.payload := rfl

/-- An entry links to the one before it. -/
theorem link_next (hhash : hash_payload R H room (t.next H c).payload = some h) :
    Link R H room t.seq t.head
      ({ t.next H c with entry_hash := h }.payload ++ [(.of "entry_hash", .str h)]) h where
  all := by
    rw [← lacks_obj]
    rfl
  seq := ⟨.num (decimal (t.seq + 1)), rfl, by
    rw [equalsInt, R.equals_decimal]
    exact decide_eq_true rfl⟩
  prev_hash := rfl
  entry_hash := rfl
  hash := hhash

end

/-- A whole call is recorded, and its line is the end of the file. -/
theorem record_whole {t : ExecutionTrace} {c : Call} (hvalued : c.Valued R)
    (hwhole : c.Whole R room t.seq) (hhead : ∀ x ∈ t.head, isScalar x = true) :
    ∃ h written, hash_payload R H room (t.next H c).payload = some h ∧
      (∀ x ∈ h, isScalar x = true) ∧
      Legible R room { t.next H c with entry_hash := h } ∧
      encode (nl.written (line R { t.next H c with entry_hash := h })) = some written ∧
      (t.record R H nl room c).1 =
        { entries := t.entries ++ [{ t.next H c with entry_hash := h }]
          head := h
          seq := t.seq + 1
          file := t.file.map (· ++ written) } := by
  obtain ⟨b, hb⟩ := (legible_next (H := H) (h := []) hvalued hwhole hhead nofun).2
  have hhash : hash_payload R H room (t.next H c).payload = some (H.hexdigest b) := by
    rw [hash_payload, hb]
    rfl
  have hhex : ∀ x ∈ H.hexdigest b, isScalar x = true := fun x hx => isScalar_plain (H.hex b x hx).2
  have hlegible := (legible_next (H := H) hvalued hwhole hhead hhex).1
  obtain ⟨written, hline, hencode⟩ := @Legible.lineBytes R nl room _ hlegible
  refine ⟨_, written, hhash, hhex, hlegible, hencode, ?_⟩
  rw [ExecutionTrace.record, hhash]
  dsimp only
  cases hfile : t.file with
  | none => rfl
  | some file =>
      dsimp only
      rw [hline]
      dsimp only
      rw [hwhole.written]
      rfl

/-- What holds of a trace while every call is whole. -/
structure Recorded (R : Numerals) (H : Sha256) (nl : Newline) (room : Nat) (t : ExecutionTrace) :
    Prop where
  seq : t.seq = t.entries.length
  chain : verify_entries R H room (t.entries.map TraceEntry.to_dict) = .ok t.head
  numbered : ∀ e es, t.entries = es ++ [e] → e.seq = es.length + 1
  legible : ∀ e ∈ t.entries, Legible R room e
  head : ∀ x ∈ t.head, isScalar x = true
  file : ∀ file, t.file = some file → decode file = some (fileText R nl t.entries)

theorem recorded_new (path : Bool) : Recorded R H nl room (.new path) where
  seq := rfl
  chain := rfl
  numbered e es h := by
    have hnil : ([] : List TraceEntry) = es ++ [e] := h
    simp at hnil
  legible := nofun
  head := by
    have hhead : ∀ x ∈ GENESIS, isScalar x = true := by decide
    exact hhead
  file file h := by
    cases path with
    | false => cases h
    | true =>
        obtain rfl := Option.some.inj h
        exact decode_empty

theorem recorded_record {t : ExecutionTrace} {c : Call} (ht : Recorded R H nl room t)
    (hvalued : c.Valued R) (hwhole : c.Whole R room t.seq) :
    Recorded R H nl room (t.record R H nl room c).1 := by
  obtain ⟨h, line, hhash, hhex, hlegible, hencode, hrecord⟩ :=
    @record_whole R H nl room _ _ hvalued hwhole ht.head
  rw [hrecord]
  refine ⟨?_, ?_, ?_, ?_, hhex, ?_⟩
  · rw [List.length_append, ← ht.seq]
    rfl
  · rw [List.map_append]
    refine verifyFrom_concat.mpr ⟨t.head, ht.chain, ?_⟩
    rw [Nat.zero_add, List.length_map, ← ht.seq]
    exact (link_next hhash).verifyEntry
  · intro e es heq
    obtain ⟨rfl, he⟩ := List.append_inj' heq rfl
    obtain rfl := (List.cons.inj he).1
    exact congrArg (· + 1) ht.seq
  · rw [List.forall_mem_append, List.forall_mem_singleton]
    exact ⟨ht.legible, hlegible⟩
  · intro file hfile
    obtain ⟨file', hfile', rfl⟩ := Option.map_eq_some_iff.mp hfile
    rw [decode_append (ht.file file' hfile') hencode, fileText, fileText, List.flatMap_append,
      List.flatMap_singleton]

theorem record_seq (t : ExecutionTrace) (c : Call) :
    (t.record R H nl room c).1.seq = t.seq + 1 := by
  rw [ExecutionTrace.record]
  dsimp only
  split
  · rfl
  · split
    · rfl
    · split
      · rfl
      · split
        · rfl
        · rfl

theorem run_seq (t : ExecutionTrace) (cs : List Call) :
    (t.run R H nl room cs).seq = t.seq + cs.length := by
  induction cs generalizing t with
  | nil => rfl
  | cons c cs ih =>
      rw [ExecutionTrace.run, List.foldl_cons]
      change (ExecutionTrace.run R H nl room _ cs).seq = _
      rw [ih, record_seq, List.length_cons]
      omega

/-- The calls are whole, each where it comes. -/
def WholeRun (R : Numerals) (room : Nat) (cs : List Call) : Prop :=
  ∀ (i : Nat) (c : Call), cs[i]? = some c → c.Valued R ∧ c.Whole R room i

theorem recorded_run {path : Bool} {cs : List Call} (hrun : WholeRun R room cs) :
    Recorded R H nl room ((ExecutionTrace.new path).run R H nl room cs) := by
  induction cs using List.reverseRecOn with
  | nil => exact recorded_new path
  | append_singleton cs c ih =>
      have hbefore : WholeRun R room cs := fun i c' hc => hrun i c' (by
        rw [List.getElem?_append_left (List.getElem?_eq_some_iff.mp hc).1]
        exact hc)
      obtain ⟨hvalued, hwhole⟩ := hrun cs.length c (by simp)
      have hseq : ((ExecutionTrace.new path).run R H nl room cs).seq = cs.length :=
        (run_seq _ cs).trans (Nat.zero_add _)
      rw [← hseq] at hwhole
      rw [ExecutionTrace.run, List.foldl_append]
      exact recorded_record (ih hbefore) hvalued hwhole

/-- The hash of the last entry. -/
def lastHash (es : List Json) : Option Json :=
  es.getLast?.bind (fun e => getItem e (.of "entry_hash"))

theorem lastHash_verified {es : List Json} {e : Json} {h : Str}
    (hok : verify_entries R H room (es ++ [e]) = .ok h) :
    lastHash (es ++ [e]) = some (.str h) := by
  obtain ⟨p, -, hentry⟩ := verifyFrom_concat.mp hok
  obtain ⟨d, rfl, hlink⟩ := verifyEntry_ok hentry
  rw [lastHash, List.getLast?_concat]
  exact hlink.entry_hash

/-- What verifies with the last hash of a recorded trace is the recorded trace. -/
theorem Recorded.agree {t : ExecutionTrace} (ht : Recorded R H nl room t) {es : List Json}
    {h : Str} (hheld : ∀ e ∈ es, Held R e) (hok : verify_entries R H room es = .ok h)
    (hlast : lastHash es = lastHash (t.entries.map TraceEntry.to_dict))
    (hnoc : NoCollision R H room es (t.entries.map TraceEntry.to_dict)) :
    List.Forall₂ Agree es (t.entries.map TraceEntry.to_dict) := by
  have hheld' : ∀ e ∈ t.entries.map TraceEntry.to_dict, Held R e := by
    intro e he
    obtain ⟨e', he', rfl⟩ := List.mem_map.mp he
    exact (ht.legible e' he').held
  have hchain := ht.chain
  rcases List.eq_nil_or_concat' es with rfl | ⟨es, e, rfl⟩
  · rcases List.eq_nil_or_concat' t.entries with hnil | ⟨rs, r, hrs⟩
    · rw [hnil]
      exact .nil
    · rw [hrs, List.map_append] at hchain hlast
      rw [List.map_singleton, lastHash_verified hchain] at hlast
      cases hlast
  · have hlasth := lastHash_verified hok
    rcases List.eq_nil_or_concat' t.entries with hnil | ⟨rs, r, hrs⟩
    · rw [hnil, hlasth] at hlast
      cases hlast
    · have hnumber := ht.numbered r rs hrs
      rw [hrs, List.map_append, List.map_singleton] at hchain hlast hnoc hheld' ⊢
      rw [hlasth, lastHash_verified hchain] at hlast
      have hhh : h = t.head := Json.str.inj (Option.some.inj hlast)
      subst hhh
      obtain ⟨p, -, hentry⟩ := verifyFrom_concat.mp hok
      obtain ⟨p', -, hentry'⟩ := verifyFrom_concat.mp hchain
      obtain ⟨d, rfl, hlink⟩ := verifyEntry_ok hentry
      obtain ⟨d', hd', hlink'⟩ := verifyEntry_ok hentry'
      have hlastAgree : Agree (.obj d) (.obj d') :=
        agree_of_hash (hheld _ (by simp)) (hheld' _ (by simp [← hd'])) hlink hlink'
          (fun b b' => hnoc d d' b b' (by simp) (by simp [← hd']))
      -- the number of the last entry is how many there are
      have hlen : es.length = rs.length := by
        obtain ⟨v, hv, hequals⟩ := hlink.seq
        obtain ⟨w, w', hw, hw', hww⟩ := hlastAgree (.of "seq") (by decide)
        have hrw : getItem r.to_dict (.of "seq") = some (.num (decimal r.seq)) := rfl
        rw [hd', hw'] at hrw
        obtain rfl := Option.some.inj hrw
        obtain rfl := Option.some.inj (hw.symm.trans hv)
        rw [sorted_num (hww.trans rfl), equalsInt, R.equals_decimal, decide_eq_true_eq, hnumber,
          Nat.zero_add] at hequals
        exact (Nat.succ.inj hequals).symm
      refine verifyFrom_agree ?_ hheld hheld' hok hchain hnoc
      rw [List.length_append, List.length_append, List.length_map, hlen]
      rfl

namespace Sample

/-- The digests of an empty screenshot and of the two payloads below. -/
def hexdigest (b : ByteArray) : Str :=
  if b = .empty then .of "e3b0c44298fc1c149afbf4c8996fb92427ae41e4649b934ca495991b7852b855"
  else if b = ("\x7b\"action\":\x7b\"kind\":\"wait\",\"raw\":\x7b\x7d\x7d,\"frame_sha256\"" ++
      ":\"e3b0c44298fc1c149afbf4c8996fb92427ae41e4649b934ca495991b7852b855\",\"pr" ++
      "ev_hash\":\"00000000000000000000000000000000000000000000000000000000000000" ++
      "00\",\"reasoning\":\"\",\"result\":\"ok\",\"seq\":1,\"ts\":1700000000.5" ++
      "\x7d").toUTF8 then
    .of "6841a7443fdcced1529917926782b987f435c72e3295b47166fcd37a5f7384ec"
  else if b = ("\x7b\"action\":\x7b\"kind\":\"wait\",\"raw\":\x7b\x7d\x7d,\"frame_sha256\"" ++
      ":\"e3b0c44298fc1c149afbf4c8996fb92427ae41e4649b934ca495991b7852b855\",\"pr" ++
      "ev_hash\":\"00000000000000000000000000000000000000000000000000000000000000" ++
      "00\",\"reasoning\":\"\",\"result\":\"ok\",\"seq\":2,\"ts\":1700000000.5" ++
      "\x7d").toUTF8 then
    .of "8371f2c3269528ab76219950ee0bb5cc7aa709db0ab92cb791574944ee2333d4"
  else GENESIS

def sha256 : Sha256 where
  hexdigest := hexdigest
  hex b := by
    rw [hexdigest]
    split_ifs
    all_goals decide

/-- A wait. -/
def call (result : Str) : Call :=
  { frame_bytes := .empty
    action := .obj [(.of "kind", .str (.of "wait")), (.of "raw", .obj [])]
    reasoning := .str []
    result
    clock := .of "1700000000.5"
    stopped := none }

theorem whole (n : Nat) (hn : isToken (decimal (n + 1)) = true) :
    (call (.of "ok")).Valued .verbatim ∧ (call (.of "ok")).Whole .verbatim 8 n := by
  have hspelled : ∀ {l : Str}, l.all isScalar = true → ∀ x ∈ l, isScalar x = true :=
    fun h => List.all_eq_true.mp h
  refine ⟨⟨⟨by decide, trivial, ⟨List.nodup_nil, trivial⟩, trivial⟩, trivial, by decide, rfl⟩, ?_⟩
  refine ⟨⟨hspelled (by decide), hspelled (by decide), hspelled (by decide), trivial, trivial⟩,
    hspelled (by decide), hspelled (by decide), ⟨7, rfl, by decide, by decide⟩, hn, rfl⟩

end Sample

/-- In a run of whole calls the file verifies with the head of the trace, and
what verifies with that head is what was recorded. -/
theorem trace_evident (path : Bool) (cs : List Call) (hrun : WholeRun R room cs)
    (t : ExecutionTrace) (ht : t = (ExecutionTrace.new path).run R H nl room cs) :
    (∀ file, t.file = some file → load R room file = some (t.entries.map TraceEntry.to_dict) ∧
      verify_file R H room file = .ok t.head) ∧
    ∀ es h, (∀ e ∈ es, Held R e) → verify_entries R H room es = .ok h →
      lastHash es = lastHash (t.entries.map TraceEntry.to_dict) →
      NoCollision R H room es (t.entries.map TraceEntry.to_dict) →
      List.Forall₂ Agree es (t.entries.map TraceEntry.to_dict) := by
  have hrecorded : Recorded R H nl room t := by
    rw [ht]
    exact recorded_run hrun
  refine ⟨fun file hfile => ?_, fun es h hheld hok hlast hnoc =>
    hrecorded.agree hheld hok hlast hnoc⟩
  have hload := load_written (hrecorded.file file hfile) hrecorded.legible
  refine ⟨hload, ?_⟩
  rw [verify_file, hload]
  exact hrecorded.chain

open Sample in
theorem trace_evident_once : ∃ t : ExecutionTrace,
    t = (ExecutionTrace.new true).run .verbatim sha256 .lf 8 [call (.of "ok")] ∧
      (∀ file, t.file = some file → verify_file .verbatim sha256 8 file = .ok t.head) ∧
      List.Forall₂ Agree (t.entries.map TraceEntry.to_dict)
        (t.entries.map TraceEntry.to_dict) := by
  have hrun : WholeRun .verbatim 8 [call (.of "ok")] := by
    intro i c hc
    cases i with
    | zero =>
        obtain rfl := Option.some.inj hc
        exact whole 0 (by decide)
    | succ i => cases hc
  obtain ⟨hfile, hagree⟩ := @trace_evident _ sha256 .lf _ true _ hrun _ rfl
  have hrecorded : Recorded .verbatim sha256 .lf 8
      ((ExecutionTrace.new true).run .verbatim sha256 .lf 8 [call (.of "ok")]) := recorded_run hrun
  obtain ⟨e, he⟩ := List.length_eq_one_iff.mp (hrecorded.seq.symm.trans (run_seq _ _))
  refine ⟨_, rfl, fun file h => (hfile file h).2, hagree _ _ ?_ hrecorded.chain rfl ?_⟩
  · intro d hd
    obtain ⟨e', he', rfl⟩ := List.mem_map.mp hd
    exact (hrecorded.legible e' he').held
  · intro d d' b b' hd hd' hb hb' _
    rw [he, List.map_singleton, List.mem_singleton] at hd hd'
    obtain rfl := Json.obj.inj (hd.trans hd'.symm)
    exact Option.some.inj (hb.symm.trans hb')

/-! ## A call that raises -/

theorem mem_moreMembers {pad : Str} {ms : List (Str × Json)} {m : Str × Json} (hm : m ∈ ms) :
    ∀ x ∈ text R pad m.2, x ∈ moreMembers R pad ms := by
  induction ms with
  | nil => cases hm
  | cons m' ms ih =>
      intro x hx
      simp only [moreMembers, List.cons_append, List.append_assoc, List.mem_cons, List.mem_append]
      rcases List.mem_cons.mp hm with rfl | hm
      · exact .inr (.inr (.inr (.inr (.inr (.inl hx)))))
      · exact .inr (.inr (.inr (.inr (.inr (.inr (ih hm x hx))))))

theorem mem_text_obj {pad : Str} {ms : List (Str × Json)} {m : Str × Json} (hm : m ∈ ms) :
    ∀ x ∈ text R pad m.2, x ∈ text R pad (.obj ms) := by
  intro x hx
  cases ms with
  | nil => cases hm
  | cons m' ms =>
      simp only [text, textMembers, List.cons_append, List.append_assoc, List.mem_cons,
        List.mem_append]
      rcases List.mem_cons.mp hm with rfl | hm
      · exact .inr (.inr (.inr (.inr (.inl hx))))
      · exact .inr (.inr (.inr (.inr (.inr (mem_moreMembers hm x hx)))))

theorem mem_quote {s : Str} {x : Nat} (hx : x ∈ s) (hscalar : isScalar x = false) :
    x ∈ quote s := by
  have hlarge : 0xd800 ≤ x := by
    by_contra hlt
    rw [isScalar, decide_eq_true (.inl (Nat.not_le.mp hlt))] at hscalar
    cases hscalar
  have hshort : shortChar x = none := by
    have hlit : '"'.toNat = 0x22 ∧ '\\'.toNat = 0x5c := by decide
    rw [shortChar, hlit.1, hlit.2, if_neg (by omega), if_neg (by omega), if_neg (by omega),
      if_neg (by omega), if_neg (by omega), if_neg (by omega)]
  have hescape : x ∈ escape s := by
    refine List.mem_flatMap.mpr ⟨x, hx, ?_⟩
    rw [escapeChar, hshort]
    dsimp only
    rw [if_neg (by omega)]
    exact List.mem_singleton.mpr rfl
  simp [quote, hescape]

/-- A surrogate in a result takes a number, and raises. -/
theorem record_surrogate {t : ExecutionTrace} {c : Call} {x : Nat} (hx : x ∈ c.result)
    (hscalar : isScalar x = false) :
    t.record R H nl room c = ({ t with seq := t.seq + 1 }, none) := by
  have hmem : (Str.of "result", Json.str c.result) ∈
      (sortedMembers (t.next H c).payload).mergeSort (fun a b => decide (a.1 ≤ b.1)) := by
    rw [(perm_sortedMembers _).mem_iff, List.mem_map]
    refine ⟨(Str.of "result", Json.str c.result), ?_, rfl⟩
    simp [TraceEntry.payload, ExecutionTrace.next]
  have hin : x ∈ text R [] (sorted (.obj (t.next H c).payload)) :=
    mem_text_obj hmem x (mem_quote hx hscalar)
  have hall : ¬ (text R [] (sorted (.obj (t.next H c).payload))).all isScalar = true := by
    rw [List.all_eq_true]
    intro hall
    rw [hall x hin] at hscalar
    cases hscalar
  have hhash : hash_payload R H room (t.next H c).payload = none := by
    rw [hash_payload, blob, dumps]
    split_ifs with hfits
    · rw [Option.bind_some, encode, if_neg hall]
      rfl
    · rfl
  rw [ExecutionTrace.record, hhash]

theorem verifyEntry_order {e : TraceEntry} {i : Nat} {prev : Str} (h : e.seq ≠ i + 1) :
    verifyEntry R H room i prev e.to_dict = .error (.order i (.num (decimal e.seq))) := by
  have hlacks : lacks e.to_dict (PAYLOAD_KEYS ++ [Str.of "entry_hash"]) = some false := rfl
  have hseq : getItem e.to_dict (.of "seq") = some (.num (decimal e.seq)) := rfl
  have hprev : getItem e.to_dict (.of "prev_hash") = some (.str e.prev_hash) := rfl
  have hentry : getItem e.to_dict (.of "entry_hash") = some (.str e.entry_hash) := rfl
  rw [verifyEntry, hlacks, hseq, hprev, hentry]
  dsimp only
  rw [if_pos]
  rw [equalsInt, R.equals_decimal]
  exact decide_eq_false h

/-- After a call that raised, the file of a whole one is refused. -/
theorem record_after_raise {c c' : Call} {x : Nat} (hx : x ∈ c.result)
    (hscalar : isScalar x = false) (hvalued : c'.Valued R) (hwhole : c'.Whole R room 1) :
    ∃ file, ((ExecutionTrace.new true).run R H nl room [c, c']).file = some file ∧
      verify_file R H room file = .error (.order 0 (.num (decimal 2))) := by
  have hhead : ∀ y ∈ GENESIS, isScalar y = true := by decide
  obtain ⟨h, written, -, -, hlegible, hencode, hrecord⟩ :=
    @record_whole R H nl room { ExecutionTrace.new true with seq := 1 } _ hvalued hwhole
      hhead
  have hrun : (ExecutionTrace.new true).run R H nl room [c, c'] =
      (({ ExecutionTrace.new true with seq := 1 } : ExecutionTrace).record R H nl room c').1 := by
    change (((ExecutionTrace.new true).record R H nl room c).1.record R H nl room c').1 = _
    rw [record_surrogate hx hscalar]
    rfl
  have hfile : decode (.empty ++ written) = some (fileText R nl
      [{ ({ ExecutionTrace.new true with seq := 1 } : ExecutionTrace).next H c' with
        entry_hash := h }]) := by
    rw [decode_append decode_empty hencode, fileText, List.flatMap_singleton]
    rfl
  refine ⟨.empty ++ written, by rw [hrun, hrecord]; rfl, ?_⟩
  rw [verify_file, load_written hfile (fun e he => by rw [List.mem_singleton.mp he]; exact hlegible)]
  change verifyFrom R H room 0 GENESIS [_] = _
  rw [verifyFrom, verifyEntry_order (show (2 : Nat) ≠ 1 by decide)]
  rfl

open Sample in
/-- A result with half a surrogate pair, and then a whole call. -/
theorem verify_file_refused : ∃ file,
    ((ExecutionTrace.new true).run .verbatim sha256 .lf 8
      [call [0xd800], call (.of "ok")]).file = some file ∧
    verify_file .verbatim sha256 8 file = .error (.order 0 (.num (.of "2"))) :=
  record_after_raise (x := 0xd800) List.mem_cons_self (by decide) (whole 1 (by decide)).1
    (whole 1 (by decide)).2

end

end Secdogie.Agent
