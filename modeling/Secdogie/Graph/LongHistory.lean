/-
# `Secdogie.Graph.LongHistory` — where the exchange gets stuck

Two stores that share a history of 256 deltas and have one of their own
each.  Each answer is filled by the shared ones, for the head of the other
is not known, so pulling in turn never gets anywhere.  The same deltas serve
for the follow-up that was lost: a store that holds the second delta as an
orphan does not ask for it, nor for the first.

The digest, for these runs, is the number a delta carries, in 32 bytes.
-/
import Secdogie.Graph.DeltaRoundTrip
import Secdogie.Graph.Reconcile

namespace Secdogie.Graph

namespace LongHistory

open DagStore Sync

/-! ## Numbered deltas -/

/-- A number below `2 ^ 16` in 32 bytes. -/
def idBytes (i : Nat) : List UInt8 :=
  List.replicate 30 0 ++ [(i / 256).toUInt8, (i % 256).toUInt8]

theorem idBytes_length (i : Nat) : (idBytes i).length = 32 := rfl

/-- The number in the first operation of a payload. -/
def idOf (v : Value Empty) : Nat :=
  match v.asObj.bind (fun m => objGet m "ops") with
  | some (.arr (.obj op :: _)) =>
      match objGet op "byte_len" with
      | some (.int n) => n.toNat
      | _ => 0
  | _ => 0

def digest (data : ByteArray) : List UInt8 :=
  match String.fromUTF8? data with
  | none => idBytes 0
  | some text =>
      match parse (F := Empty) text with
      | .ok v => idBytes (idOf v)
      | .error _ => idBytes 0

theorem digest_length (data : ByteArray) : (digest data).length = 32 := by
  unfold digest
  split
  · rfl
  · split <;> rfl

def prims : Prims where
  sha256 := digest
  sha256_length := digest_length
  b64decode _ := some (List.replicate 64 0)
  keyOk _ := true
  verifyStrict _ _ _ := true
  debugStr s := "\"" ++ s ++ "\""

def cid (i : Nat) : String := String.ofList ((idBytes i).flatMap hexByte)

/-- The delta under number `i`: one of a chain up to 256, which has 257
beside it. -/
def delta (i : Nat) : GraphDelta where
  author := Golden.AGENT
  parents := if i = 0 then [] else [cid (min i 256 - 1)]
  lamport := min i 256 + 1
  ops := [.addObservation (cid 0) (cid 0) i]

def wire (i : Nat) : String := toStr (.obj (Golden.signed (delta i) ""))

def node (i : Nat) : Node := ⟨cid i, delta i, wire i⟩

theorem idBytes_inj {i j : Nat} (hi : i < 2 ^ 16) (hj : j < 2 ^ 16) (h : idBytes i = idBytes j) :
    i = j := by
  simp only [idBytes, List.append_cancel_left_eq, List.cons.injEq, and_true] at h
  have h1 := congrArg UInt8.toNat h.1
  have h2 := congrArg UInt8.toNat h.2
  simp only [Nat.toUInt8, UInt8.toNat_ofNat'] at h1 h2
  omega

theorem cid_inj {i j : Nat} (hi : i < 2 ^ 16) (hj : j < 2 ^ 16) (h : cid i = cid j) : i = j :=
  idBytes_inj hi hj (flatMap_hexByte_inj (String.ofList_injective h))

theorem isHex64_cid (i : Nat) : isHex64 (cid i) = true := isHex64_hex (idBytes_length i)

theorem valid_delta {i : Nat} (hi : i < 2 ^ 16) : (delta i).Valid where
  parents := by
    unfold delta
    dsimp only
    split_ifs
    · exact ⟨by simp, by simp, by simp⟩
    · exact ⟨by simp [MAX_PARENTS], by simp, by simp [isHex64_cid]⟩
  lamport_pos := Nat.le_add_left 1 _
  lamport_le := by
    have : MAX_SAFE_INT = 9007199254740991 := by norm_num [MAX_SAFE_INT]
    simp only [delta]
    omega
  ops_ne := by simp [delta]
  ops_le := by simp [delta, MAX_OPS]
  ops := by
    have : MAX_SAFE_INT = 9007199254740991 := by norm_num [MAX_SAFE_INT]
    intro op hop
    obtain rfl := List.mem_singleton.mp hop
    exact ⟨isHex64_cid 0, isHex64_cid 0, by omega⟩

/-! ## Their size -/

theorem byteLen_writeStr_le (s : String) : byteLen (writeStr s) ≤ 6 * s.toList.length + 2 := by
  have hescape : ∀ l : List Char, byteLen (escape l) ≤ 6 * l.length := by
    intro l
    induction l with
    | nil => exact le_rfl
    | cons c l ih =>
        rw [escape, List.flatMap_cons, byteLen_append, List.length_cons]
        have := byteLen_escapeChar_le c
        rw [escape] at ih
        omega
  have := hescape s.toList
  simp only [writeStr, byteLen_cons, byteLen_append, byteLen_nil, show '"'.utf8Size = 1 from rfl]
  omega

theorem byteLen_int_le {n : Nat} (hn : n < 10 ^ 5) : byteLen (intDigits (n : Int)) ≤ 5 := by
  have hneg : ¬ ((n : Int) < 0) := by omega
  rw [intDigits, if_neg hneg, Int.natAbs_natCast,
    byteLen_digits (fun c hc => Nat.isDigit_of_mem_toDigits (by omega) (by omega) hc)]
  exact (Nat.length_toDigits_le_iff (by omega) (by omega)).mpr hn

theorem length_cid (i : Nat) : (cid i).toList.length = 64 := by
  simp [cid, idBytes, hexByte]

theorem opValue_delta_le {i : Nat} (hi : i < 2 ^ 16) :
    byteLen (writeValue (opValue (.addObservation (cid 0) (cid 0) i) : Value Empty)) ≤ 1000 := by
  have hcid := byteLen_writeStr_le (cid 0)
  have hint := byteLen_int_le (n := i) (by omega)
  rw [length_cid] at hcid
  have h1 : byteLen (writeStr "byte_len") = 10 := by decide
  have h2 : byteLen (writeStr "content_hash") = 14 := by decide
  have h3 : byteLen (writeStr "op") = 4 := by decide
  have h4 : byteLen (writeStr "add_observation") = 17 := by decide
  have h5 : byteLen (writeStr "state") = 7 := by decide
  rw [opValue_addObservation, writeValue, byteLen_cons, byteLen_writeMembers]
  simp only [memberCost, writeValue, h1, h2, h3, h4, h5, show '\x7b'.utf8Size = 1 from rfl]
  omega

theorem parents_delta_le (i : Nat) :
    byteLen (writeValue (strArr (delta i).parents : Value Empty)) ≤ 1000 := by
  have hcid := byteLen_writeStr_le (cid (min i 256 - 1))
  rw [length_cid] at hcid
  have h1 : '['.utf8Size = 1 := rfl
  have h2 : ']'.utf8Size = 1 := rfl
  unfold delta
  dsimp only
  split_ifs
  · simp [strArr, writeValue, writeItems, h1, h2]
  · simp only [strArr, List.map_cons, List.map_nil, writeValue, writeItems, writeMoreItems,
      byteLen_cons, byteLen_append, byteLen_nil, h1, h2]
    omega

theorem wire_le {i : Nat} (hi : i < 2 ^ 16) :
    byteLen (writeValue (.obj (Golden.signed (delta i) ""))) ≤ 5000 ∧
      byteLen (writeValue (payloadValue (delta i) : Value Empty)) ≤ 5000 := by
  have hop := opValue_delta_le hi
  have hparents := parents_delta_le i
  have hint := byteLen_int_le (n := (delta i).lamport) (by simp only [delta]; omega)
  have h0 : byteLen (writeStr (delta i).author) = 58 := by
    rw [show (delta i).author = Golden.AGENT from rfl]
    decide
  have h1 : byteLen (writeStr "author") = 8 := by decide
  have h2 : byteLen (writeStr "lamport") = 9 := by decide
  have h3 : byteLen (writeStr "ops") = 5 := by decide
  have h4 : byteLen (writeStr "parents") = 9 := by decide
  have h5 : byteLen (writeStr "type") = 6 := by decide
  have h6 : byteLen (writeStr "sig") = 5 := by decide
  have h7 : byteLen (writeStr "signer") = 8 := by decide
  have h8 : byteLen (writeStr DELTA_TYPE) ≤ 200 := by decide
  have h9 : byteLen (writeStr "") = 2 := by decide
  have hops : byteLen (writeValue (.arr ((delta i).ops.map (opValue (F := Empty))))) ≤ 1002 := by
    rw [show (delta i).ops = [.addObservation (cid 0) (cid 0) i] from rfl]
    simp only [List.map_cons, List.map_nil, writeValue, writeItems, writeMoreItems, byteLen_cons,
      byteLen_append, byteLen_nil, show '['.utf8Size = 1 from rfl, show ']'.utf8Size = 1 from rfl]
    omega
  constructor
  · rw [Golden.signed, writeValue, byteLen_cons, byteLen_writeMembers]
    simp only [memberCost, h1, h2, h3, h4, h5, h6, h7, show '\x7b'.utf8Size = 1 from rfl]
    simp only [writeValue.eq_4, writeValue.eq_6, h0, h9]
    omega
  · rw [payloadValue_eq, writeValue, byteLen_cons, byteLen_writeMembers]
    simp only [memberCost, h1, h2, h3, h4, h5, show '\x7b'.utf8Size = 1 from rfl]
    simp only [writeValue.eq_4, writeValue.eq_6, h0]
    omega

/-! ## Reading them -/

theorem prims_sha256 : prims.sha256 = digest := by
  simp only [prims]

theorem payloadOf_signed (d : GraphDelta) (sig : String) :
    payloadOf (Golden.signed d sig) = payloadValue d := by
  rw [payloadValue_eq]
  simp [payloadOf, Golden.signed]

theorem digest_payload {i : Nat} (hi : i < 2 ^ 16) :
    digest (toBytes (payloadValue (delta i) : Value Empty)) = idBytes i := by
  have hparse : parse (F := Empty) (toStr (payloadValue (delta i) : Value Empty))
      = .ok (payloadValue (delta i)) := by
    refine parseWith_toStr (P := fun _ => False) (fun _ h => h.elim) (payloadValue_wf 60 _) ?_
    rw [toStr, utf8ByteSize_ofList]
    exact (wire_le hi).2.trans (by decide)
  have htext : String.fromUTF8? (toBytes (payloadValue (delta i) : Value Empty))
      = some (toStr (payloadValue (delta i) : Value Empty)) := by
    unfold String.fromUTF8? toBytes
    simp only [String.toUTF8_eq_toByteArray]
    rw [dif_pos (toStr (payloadValue (delta i) : Value Empty)).isValidUTF8]
    rfl
  have hid : idOf (payloadValue (delta i)) = i := by
    rw [payloadValue_eq]
    simp [idOf, Value.asObj, objGet, delta, opValue_addObservation]
  unfold digest
  rw [htext]
  dsimp only
  rw [hparse]
  dsimp only
  rw [hid]

theorem parse_wire {i : Nat} (hi : i < 2 ^ 16) :
    parse (wire i) = .ok (.obj (Golden.signed (delta i) "") : Value Empty) :=
  Golden.parse_signed ((wire_le hi).1.trans (by decide))

theorem parsePayload_delta {i : Nat} (hi : i < 2 ^ 16) :
    parsePayload prims (payloadOf (Golden.signed (delta i) "")) = .ok (delta i) := by
  rw [payloadOf_signed]
  exact parsePayload_payloadValue (valid_delta hi)

theorem authenticate_of {P : Prims} {F : Type} [FloatCodec F] {trust : Trust}
    {m : List (String × Value F)} {ver : Verified F} (hver : verify P m = .ok ver)
    (hauthor : (ver.payload.asObj.bind (fun p => objGet p "author")).bind Value.asStr
      = some ver.signer) (htrust : trust.contains ver.signer = true) :
    authenticate P trust (.obj m) = .ok ver := by
  have hobj : (Value.obj m).asObj = some m := rfl
  rw [authenticate, hobj]
  dsimp only
  rw [hver]
  dsimp only
  rw [if_neg (not_not.mpr hauthor), htrust]
  rfl

theorem cid_payload {i : Nat} (hi : i < 2 ^ 16) :
    sha256Hex prims (toBytes (payloadOf (Golden.signed (delta i) ""))) = cid i := by
  rw [payloadOf_signed, sha256Hex, prims_sha256, digest_payload hi, cid]

/-- Every store that trusts the author reads the numbered deltas. -/
theorem readNode_wire {i : Nat} (hi : i < 2 ^ 16) {trust : Trust}
    (htrust : trust.contains Golden.AGENT = true) {max_bytes : Nat} (hmax : 5000 ≤ max_bytes) :
    readNode prims Empty trust max_bytes (wire i) = some (node i) := by
  have hsize : ¬ max_bytes < (wire i).utf8ByteSize := by
    have := (wire_le hi).1
    rw [wire, toStr, utf8ByteSize_ofList]
    omega
  have hkey : (pubkeyFromDid Golden.AGENT).isOk = true := by decide +kernel
  obtain ⟨pk, hpk⟩ : ∃ pk, pubkeyFromDid Golden.AGENT = .ok pk := by
    cases h : pubkeyFromDid Golden.AGENT with
    | ok pk => exact ⟨pk, rfl⟩
    | error e => rw [h] at hkey; cases hkey
  have hsigner : objGet (Golden.signed (delta i) "") "signer" = some (.str Golden.AGENT) := by
    simp [objGet, Golden.signed, delta]
  have hsig : objGet (Golden.signed (delta i) "") "sig" = some (.str "") := by
    simp [objGet, Golden.signed]
  have hverify : verify prims (Golden.signed (delta i) "") = .ok ⟨Golden.AGENT,
      payloadOf (Golden.signed (delta i) ""), toBytes (payloadOf (Golden.signed (delta i) ""))⟩ := by
    unfold verify
    rw [hsigner, hsig]
    dsimp only
    rw [hpk]
    simp [prims]
  have hauthor : (((payloadOf (Golden.signed (delta i) "")).asObj.bind
      (fun p => objGet p "author")).bind Value.asStr) = some Golden.AGENT := by
    rw [payloadOf_signed, payloadValue_eq]
    simp [Value.asObj, objGet, Value.asStr, delta]
  have hauth := authenticate_of hverify hauthor htrust
  unfold readNode
  rw [if_neg hsize, parse_wire hi]
  dsimp only
  rw [hauth]
  dsimp only
  rw [parsePayload_delta hi, cid_payload hi]
  rfl

/-- The digest keeps the numbered deltas apart. -/
theorem collisionFree {wires : Set String} (h : ∀ w ∈ wires, ∃ i, i < 2 ^ 16 ∧ w = wire i) :
    CollisionFree prims Empty wires := by
  have hbytes : ∀ w ∈ wires, ∀ b, Hashed prims Empty w b → ∃ i, i < 2 ^ 16 ∧
      b = toBytes (payloadValue (delta i) : Value Empty) := by
    intro w hw b hb
    obtain ⟨i, hi, rfl⟩ := h w hw
    obtain ⟨m, hm, hb⟩ := hb
    obtain rfl := Value.obj.inj (Except.ok.inj ((parse_wire hi).symm.trans hm))
    rcases hb with rfl | ⟨d, hd, o, r, q, hop, -⟩
    · exact ⟨i, hi, by rw [payloadOf_signed]⟩
    · obtain rfl := Except.ok.inj ((parsePayload_delta hi).symm.trans hd)
      simp [delta] at hop
  rw [CollisionFree, prims_sha256]
  rintro b ⟨w, hw, hb⟩ b' ⟨w', hw', hb'⟩ heq
  obtain ⟨i, hi, rfl⟩ := hbytes w hw b hb
  obtain ⟨j, hj, rfl⟩ := hbytes w' hw' b' hb'
  rw [digest_payload hi, digest_payload hj] at heq
  rw [idBytes_inj hi hj heq]

/-! ## Filling a store with them -/

/-- A delta whose parents are nodes goes straight in, when nothing waits. -/
theorem insertWire_direct {P : Prims} {F : Type} [FloatCodec F] {s : DagStore} {w : String}
    {n : Node} (hread : readNode P F s.trust s.cfg.max_envelope_bytes w = some n)
    (horphans : s.orphans = ∅) (hwaiting : s.waiting_on = ∅) (hnew : n.cid ∉ s.nodes)
    (hparents : ∀ p ∈ n.delta.parents, p ∈ s.nodes)
    (hlamport : n.delta.lamport = s.expectedLamport n.delta)
    (hroom : s.nodes.size < s.cfg.max_nodes) :
    accept P F s n = .ok (s.insertWire P F w).2 := by
  have hacc : ∃ s', accept P F s n = .ok s' := by
    unfold accept
    dsimp only
    rw [if_neg (not_not.mpr hlamport), if_neg (by omega)]
    exact ⟨_, rfl⟩
  obtain ⟨s', hacc⟩ := hacc
  have hs' := (accept_ok hacc).2.2
  have hno : n.cid ∉ s.orphans := by rw [horphans]; exact Std.ExtTreeMap.not_mem_empty
  rw [insertWire_store, hread]
  simp only [knows, StrMap.contains_eq, hnew, hno, decide_false, Bool.or_self, if_false,
    Bool.false_eq_true]
  rcases insertNode_cases (P := P) (F := F) s n with ⟨hmiss, -⟩ | ⟨-, ⟨e, he⟩, -⟩ | ⟨-, t, ht, heq⟩
  · exact absurd (missing_eq_nil.mpr hparents) hmiss
  · simp [hacc] at he
  · obtain rfl := Except.ok.inj (hacc.symm.trans ht)
    rw [heq, hacc]
    have hsize : s'.orphans.size = 0 := by
      rw [hs']
      simp [horphans]
    have hwait : s'.waiting_on[n.cid]? = none := by
      rw [hs']
      simp [hwaiting]
    have hround : promoteRound P F { store := s', work := [n.cid] } n.cid []
        = { store := s', work := [] } := promoteRound_none hwait
    rw [promote, hsize, promoteLoop]
    dsimp only
    rw [hround, promoteLoop]

/-- The store holds the deltas under these numbers and nothing else. -/
structure Filled (s₀ : DagStore) (ids : List Nat) (s : DagStore) : Prop where
  nodes : ∀ (c : String) n, s.nodes[c]? = some n ↔ ∃ i ∈ ids, c = cid i ∧ n = node i
  orphans : s.orphans = ∅
  waiting_on : s.waiting_on = ∅
  size : s.nodes.size = ids.length
  setup : SameSetup s₀ s

/-- The deltas a delta builds on are among `ids`. -/
def Ready (ids : List Nat) (i : Nat) : Prop := i = 0 ∨ min i 256 - 1 ∈ ids

theorem filled_insert {s₀ s : DagStore} {ids : List Nat} {i : Nat}
    (htrust : s₀.trust.contains Golden.AGENT = true) (hmax : 5000 ≤ s₀.cfg.max_envelope_bytes)
    (hroom : ids.length < s₀.cfg.max_nodes) (hids : ∀ j ∈ ids, j < 2 ^ 16) (hi : i < 2 ^ 16)
    (hnew : i ∉ ids) (hready : Ready ids i) (h : Filled s₀ ids s) :
    Filled s₀ (i :: ids) (s.insertWire prims Empty (wire i)).2 := by
  have hmem : ∀ j, j < 2 ^ 16 → (cid j ∈ s.nodes ↔ j ∈ ids) := by
    intro j hj
    rw [StrMap.mem_iff_get]
    constructor
    · rintro ⟨n, hn⟩
      obtain ⟨k, hk, hc, -⟩ := (h.nodes _ n).mp hn
      exact cid_inj hj (hids k hk) hc ▸ hk
    · exact fun hj => ⟨node j, (h.nodes _ _).mpr ⟨j, hj, rfl, rfl⟩⟩
  have hparents : ∀ p ∈ (node i).delta.parents, p ∈ s.nodes := by
    intro p hp
    simp only [node, delta] at hp
    split_ifs at hp with hzero
    · simp at hp
    · rw [List.mem_singleton.mp hp, hmem _ (by omega)]
      exact hready.resolve_left hzero
  have hlamport : (node i).delta.lamport = s.expectedLamport (node i).delta := by
    simp only [node, delta, expectedLamport, maxLamport]
    split_ifs with hzero
    · simp [hzero]
    · have hp := hready.resolve_left hzero
      have hget : s.nodes[cid (min i 256 - 1)]? = some (node (min i 256 - 1)) :=
        (h.nodes _ _).mpr ⟨_, hp, rfl, rfl⟩
      simp only [List.filterMap_cons, hget, List.filterMap_nil, List.map_cons, List.map_nil,
        List.foldl_cons, List.foldl_nil, node, delta]
      omega
  have hread : readNode prims Empty s.trust s.cfg.max_envelope_bytes (wire i) = some (node i) :=
    readNode_wire hi (h.setup.1 ▸ htrust) (h.setup.2 ▸ hmax)
  have hcid : cid i ∉ s.nodes := (hmem i hi).not.mpr hnew
  have hacc := insertWire_direct hread h.orphans h.waiting_on hcid hparents hlamport
    (by rw [h.size, h.setup.2]; exact hroom)
  obtain ⟨-, -, heq⟩ := accept_ok hacc
  rw [heq]
  refine ⟨fun c n => ?_, h.orphans, h.waiting_on, ?_, h.setup⟩
  · dsimp only
    rw [StrMap.get_insert]
    change (if cid i = c then some (node i) else s.nodes[c]?) = some n ↔ _
    split_ifs with hc
    · constructor
      · intro hn
        exact ⟨i, by simp, hc.symm, (Option.some.inj hn).symm⟩
      · rintro ⟨j, hj, hcj, rfl⟩
        have hj' : j < 2 ^ 16 := (List.mem_cons.mp hj).elim (fun h => h ▸ hi) (hids j)
        rw [cid_inj hi hj' (hc.trans hcj)]
    · rw [h.nodes]
      constructor
      · rintro ⟨j, hj, hn⟩
        exact ⟨j, List.mem_cons_of_mem _ hj, hn⟩
      · rintro ⟨j, hj, hcj, hn⟩
        rcases List.mem_cons.mp hj with rfl | hj
        · exact absurd hcj.symm hc
        · exact ⟨j, hj, hcj, hn⟩
  · exact (StrMap.size_insert_new (v := node i) hcid).trans (congrArg (· + 1) h.size)

theorem trust_agent : Golden.store.trust.contains Golden.AGENT = true := by
  simp [Trust.contains, Golden.store]

theorem filled_start : Filled Golden.store [] Golden.store where
  nodes := fun c n => by simp [Golden.store]
  orphans := rfl
  waiting_on := rfl
  size := rfl
  setup := ⟨rfl, rfl⟩

theorem filled_one {s : DagStore} {ids : List Nat} {i : Nat} (h : Filled Golden.store ids s)
    (hids : ∀ j ∈ ids, j < 2 ^ 16) (hlen : ids.length < 1000) (hi : i < 2 ^ 16) (hnew : i ∉ ids)
    (hready : Ready ids i) : Filled Golden.store (i :: ids) (s.insertWire prims Empty (wire i)).2 :=
  filled_insert trust_agent (by decide) (lt_of_lt_of_le hlen (by decide)) hids hi hnew hready h

theorem insertWires_concat {P : Prims} {F : Type} [FloatCodec F] (s : DagStore)
    (wires : List String) (w : String) :
    insertWires P F s (wires ++ [w]) = ((insertWires P F s wires).insertWire P F w).2 := by
  simp only [insertWires, List.foldl_append, List.foldl_cons, List.foldl_nil]

theorem filled_chain : ∀ {k : Nat}, k ≤ 257 → Filled Golden.store (List.range k).reverse
    (insertWires prims Empty Golden.store ((List.range k).map wire))
  | 0, _ => filled_start
  | k + 1, hk => by
      have ih := filled_chain (k := k) (by omega)
      have hids : (List.range (k + 1)).reverse = k :: (List.range k).reverse := by
        rw [List.range_succ, List.reverse_append]
        rfl
      have hwires : (List.range (k + 1)).map wire = (List.range k).map wire ++ [wire k] := by
        rw [List.range_succ, List.map_append]
        rfl
      rw [hids, hwires, insertWires_concat]
      refine filled_one ih (fun j hj => ?_) (by simp; omega) (by omega) (by simp) ?_
      · have := List.mem_range.mp (List.mem_reverse.mp hj)
        omega
      · by_cases hzero : k = 0
        · exact .inl hzero
        · refine .inr (List.mem_reverse.mpr (List.mem_range.mpr ?_))
          omega

/-! ## A long common history -/

def branchWires (i : Nat) : List String := (List.range 256).map wire ++ [wire i]

/-- The 256 deltas and then number `i`. -/
def branch (i : Nat) : DagStore := insertWires prims Empty Golden.store (branchWires i)

theorem filled_tip {i : Nat} {s : DagStore} (h : i = 256 ∨ i = 257)
    (hs : Filled Golden.store (List.range 256).reverse s) :
    Filled Golden.store (i :: (List.range 256).reverse) (s.insertWire prims Empty (wire i)).2 := by
  have hids : ∀ {j : Nat}, j ∈ (List.range 256).reverse ↔ j < 256 := by
    intro j
    rw [List.mem_reverse, List.mem_range]
  have hlen : (List.range 256).reverse.length < 1000 := by
    rw [List.length_reverse, List.length_range]
    omega
  refine filled_one hs (fun j hj => (hids.mp hj).trans (by omega)) hlen (by omega) ?_ ?_
  · rw [hids]
    omega
  · refine .inr (hids.mpr ?_)
    omega

theorem filled_branch {i : Nat} (h : i = 256 ∨ i = 257) :
    Filled Golden.store (i :: (List.range 256).reverse) (branch i) := by
  have htip := filled_tip h (filled_chain (k := 256) (Nat.le_succ 256))
  rw [← insertWires_concat] at htip
  exact htip

theorem reached_branch (i : Nat) : Reached prims Empty (branchWires i) (branch i) :=
  ⟨Golden.config, Golden.store, Golden.new_config, rfl⟩

theorem mem_branch {i j : Nat} (h : i = 256 ∨ i = 257) (hj : j < 2 ^ 16) :
    cid j ∈ (branch i).nodes ↔ j = i ∨ j < 256 := by
  rw [StrMap.mem_iff_get]
  constructor
  · rintro ⟨n, hn⟩
    obtain ⟨k, hk, hc, -⟩ := ((filled_branch h).nodes _ n).mp hn
    have hk' : k = i ∨ k < 256 := by
      simpa using hk
    rwa [cid_inj hj (by omega) hc]
  · intro hj'
    exact ⟨node j, ((filled_branch h).nodes _ _).mpr ⟨j, by simpa using hj', rfl, rfl⟩⟩

/-- Everything in the chain is under its tip. -/
theorem ancestor_branch {i : Nat} (h : i = 256 ∨ i = 257) : ∀ {k j : Nat}, j + k = 256 →
    Ancestor (branch i) (cid i) (cid j) ∨ j = 256
  | 0, j, hj => .inr (by omega)
  | k + 1, j, hj => by
      have hparent : ∀ m, m = i ∨ m < 256 → m ≠ 0 → min m 256 - 1 < 256 →
          cid (min m 256 - 1) ∈ (branch i).nodeParents (cid m) := by
        intro m hm hzero hlt
        refine mem_nodeParents.mpr ⟨node m, ?_, ?_, (mem_branch h (by omega)).mpr (.inr hlt)⟩
        · exact ((filled_branch h).nodes _ _).mpr ⟨m, by simpa using hm, rfl, rfl⟩
        · simp [node, delta, hzero]
      refine .inl ?_
      by_cases hlast : j + 1 = 256
      rotate_left
      · have ih := (ancestor_branch h (k := k) (j := j + 1) (by omega)).resolve_right hlast
        have hnext := hparent (j + 1) (by omega) (by omega) (by omega)
        rw [show min (j + 1) 256 - 1 = j by omega] at hnext
        exact ih.tail hnext
      · have hnext := hparent i (.inl rfl) (by omega) (by omega)
        rw [show min i 256 - 1 = j by omega] at hnext
        exact .single hnext

theorem inv_branch {i : Nat} (h : i = 256 ∨ i = 257) {W : Set String}
    (hW : ∀ j ≤ 257, wire j ∈ W) (hfree : CollisionFree prims Empty W) :
    LoopInv prims Empty (Carries prims Empty W) (branch i) [] [] := by
  refine (reached_branch i).inv (fun w hw => ?_) hfree
  rcases List.mem_append.mp hw with hw | hw
  · obtain ⟨j, hj, rfl⟩ := List.mem_map.mp hw
    have := List.mem_range.mp hj
    exact hW j (by omega)
  · rw [List.mem_singleton.mp hw]
    exact hW i (by omega)

theorem free_all : CollisionFree prims Empty {w | ∃ j, j ≤ 257 ∧ w = wire j} :=
  collisionFree (fun w hw => by
    obtain ⟨j, hj, rfl⟩ := hw
    exact ⟨j, by omega, rfl⟩)

theorem inv_all {i : Nat} (h : i = 256 ∨ i = 257) :
    LoopInv prims Empty (Carries prims Empty {w | ∃ j, j ≤ 257 ∧ w = wire j}) (branch i) [] [] :=
  inv_branch h (fun j hj => ⟨j, hj, rfl⟩) free_all

theorem heads_branch {i : Nat} (h : i = 256 ∨ i = 257) {c : String}
    (hc : c ∈ (branch i).heads) : c = cid i := by
  obtain ⟨hnode, hleaf⟩ := ((inv_all h).nodes.heads c).mp hc
  obtain ⟨n, hn⟩ := StrMap.mem_iff_get.mp hnode
  obtain ⟨j, hj, rfl, -⟩ := ((filled_branch h).nodes c n).mp hn
  by_contra hne
  have hj' : j = i ∨ j < 256 := by simpa using hj
  have hlt : j < 256 := hj'.resolve_left (fun heq => hne (heq ▸ rfl))
  -- a delta of the chain is the parent of the next one, or of the tip
  by_cases hlast : j = 255
  · refine hleaf (cid i) (node i) (((filled_branch h).nodes _ _).mpr ⟨i, by simp, rfl, rfl⟩) ?_
    have hi : i ≠ 0 := by omega
    simp only [node, delta, if_neg hi, List.mem_singleton]
    rw [show min i 256 - 1 = j by omega]
  · refine hleaf (cid (j + 1)) (node (j + 1))
      (((filled_branch h).nodes _ _).mpr ⟨j + 1, ?_, rfl, rfl⟩) ?_
    · simp only [List.mem_cons, List.mem_reverse, List.mem_range]
      omega
    · simp only [node, delta, if_neg (Nat.succ_ne_zero j), List.mem_singleton]
      rw [show min (j + 1) 256 - 1 = j by omega]

theorem lamportOf_of_get {nodes : StrMap Node} {c : String} {n : Node} (h : nodes[c]? = some n) :
    lamportOf nodes c = n.delta.lamport := by
  simp [lamportOf, h]

/-- The whole batch is common history. -/
theorem sent_branch {i j : Nat} (hi : i = 256 ∨ i = 257) (hj : j = 256 ∨ j = 257) (hne : i ≠ j)
    {wanted : Set String} : ∀ c ∈ Sent (branch i) wanted (branch j), c ∈ (branch j).nodes := by
  intro c hc
  obtain ⟨⟨r, hrw, hr, hrc⟩, -⟩ := firstN_subset _ _ _ hc
  obtain ⟨n, hn⟩ := StrMap.mem_iff_get.mp (ancestor_mem hr hrc)
  obtain ⟨m, hm, rfl, -⟩ := ((filled_branch hi).nodes c n).mp hn
  have hm' : m = i ∨ m < 256 := by simpa using hm
  rcases hm' with rfl | hlt
  · -- the tip has 256 nodes before it
    exfalso
    have howed : ∀ k < 256, cid k ∈ Owed (branch m) wanted (branch j) := by
      intro k hk
      have hanc := (ancestor_branch hi (k := 256 - k) (j := k) (by omega)).resolve_right (by omega)
      refine ⟨⟨r, hrw, hr, hrc.trans hanc⟩, ?_⟩
      rintro ⟨x, hx, hxm, -⟩
      rw [heads_branch hj hx, mem_branch hi (by omega)] at hxm
      omega
    have hbefore : ∀ k < 256, Before (branch m) (cid k) (cid m) := by
      intro k hk
      have hget : ∀ l, l = m ∨ l < 256 → (branch m).nodes[cid l]? = some (node l) := fun l hl =>
        ((filled_branch hi).nodes _ _).mpr ⟨l, by simpa using hl, rfl, rfl⟩
      refine .inl ?_
      rw [lamportOf_of_get (hget k (.inr hk)), lamportOf_of_get (hget m (.inl rfl))]
      change min k 256 + 1 < min m 256 + 1
      omega
    have hsub : ((Finset.range 256).image cid : Set String) ⊆
        {y | y ∈ Owed (branch m) wanted (branch j) ∧ Before (branch m) y (cid m)} := by
      intro y hy
      obtain ⟨k, hk, rfl⟩ := Finset.mem_image.mp (Finset.mem_coe.mp hy)
      have hk := Finset.mem_range.mp hk
      exact ⟨howed k hk, hbefore k hk⟩
    have hfin : {y | y ∈ Owed (branch m) wanted (branch j) ∧
        Before (branch m) y (cid m)}.Finite := by
      refine Set.Finite.subset (Finset.finite_toSet (branch m).nodes.keys.toFinset) ?_
      rintro x ⟨⟨⟨r, -, hr, hrx⟩, -⟩, -⟩
      simpa using ancestor_mem hr hrx
    have hcard : ((Finset.range 256).image cid).card = 256 := by
      rw [Finset.card_image_of_injOn, Finset.card_range]
      intro x hx y hy hxy
      have hx := Finset.mem_range.mp hx
      have hy := Finset.mem_range.mp hy
      exact cid_inj (by omega) (by omega) hxy
    have hle := Set.ncard_le_ncard hsub hfin
    rw [Set.ncard_coe_finset, hcard] at hle
    exact absurd hc.2 (not_lt.mpr hle)
  · exact (mem_branch hj (by omega)).mpr (.inr hlt)

theorem reads_branch {i j : Nat} (hi : i = 256 ∨ i = 257) (hj : j = 256 ∨ j = 257) :
    Sync.Reads (branch j) (branch i) := by
  intro c n hn
  obtain ⟨k, hk, -, rfl⟩ := ((filled_branch hi).nodes c n).mp hn
  have hk' : k = i ∨ k < 256 := by simpa using hk
  have hsize := (wire_le (i := k) (by omega)).1
  obtain ⟨htrust, hcfg⟩ := (filled_branch hj).setup
  rw [htrust, hcfg]
  refine ⟨?_, trust_agent⟩
  have hmax : Golden.store.cfg.max_envelope_bytes = 65536 := rfl
  rw [hmax]
  change (wire k).utf8ByteSize ≤ 65536
  rw [wire, toStr, utf8ByteSize_ofList]
  omega

/-- A pull leaves the store as it was. -/
theorem pull_branch {i j : Nat} (hi : i = 256 ∨ i = 257) (hj : j = 256 ∨ j = 257) (hne : i ≠ j) :
    (pull prims Empty (branch j) (branch i)).1 = branch j := by
  exact pull_known (names_of_carries free_all (fun n hn => hn)) (inv_all hi) (reads_branch hi hj)
    (sent_branch hi hj hne)

theorem free_branches :
    CollisionFree prims Empty {w | w ∈ branchWires 256 ++ branchWires 257} := by
  refine free_all.mono ?_
  rintro b ⟨w, hw, hb⟩
  refine ⟨w, ?_, hb⟩
  rcases List.mem_append.mp hw with hw | hw <;> rcases List.mem_append.mp hw with hw | hw
  · obtain ⟨j, hj, rfl⟩ := List.mem_map.mp hw
    exact ⟨j, by have := List.mem_range.mp hj; omega, rfl⟩
  · exact ⟨256, by omega, List.mem_singleton.mp hw⟩
  · obtain ⟨j, hj, rfl⟩ := List.mem_map.mp hw
    exact ⟨j, by have := List.mem_range.mp hj; omega, rfl⟩
  · exact ⟨257, by omega, List.mem_singleton.mp hw⟩

theorem room_branches {i j : Nat} (hi : i = 256 ∨ i = 257) (hj : j = 256 ∨ j = 257) :
    (nodeSet (branch i) ∪ nodeSet (branch j)).card ≤ (branch i).cfg.max_nodes := by
  have hle := Finset.card_union_le (nodeSet (branch i)) (nodeSet (branch j))
  rw [card_nodeSet, card_nodeSet, (filled_branch hi).size, (filled_branch hj).size,
    List.length_cons, List.length_cons, List.length_reverse, List.length_range] at hle
  have hmax : Golden.store.cfg.max_nodes = 100000 := rfl
  rw [(filled_branch hi).setup.2, hmax]
  omega

/-- Turn by turn the two stores only change places. -/
theorem turns_branch (n : ℕ) :
    (turn prims Empty)^[n] (branch 256, branch 257) = (branch 256, branch 257) ∨
      (turn prims Empty)^[n] (branch 256, branch 257) = (branch 257, branch 256) := by
  induction n with
  | zero => exact .inl rfl
  | succ n ih =>
      rw [Function.iterate_succ_apply']
      rcases ih with ih | ih
      · refine .inr ?_
        rw [ih, turn, pull_branch (.inl rfl) (.inr rfl) (by omega)]
      · refine .inl ?_
        rw [ih, turn, pull_branch (.inr rfl) (.inl rfl) (by omega)]

theorem mine_only {i j : Nat} (hi : i = 256 ∨ i = 257) (hj : j = 256 ∨ j = 257) (hne : i ≠ j) :
    cid i ∈ (branch i).nodes ∧ cid i ∉ (branch j).nodes := by
  rw [mem_branch hi (by omega), mem_branch hj (by omega)]
  omega

theorem not_same_branch {i j : Nat} (hi : i = 256 ∨ i = 257) (hj : j = 256 ∨ j = 257)
    (hne : i ≠ j) : ¬ Same (branch i, branch j) := by
  rintro ⟨hd, -⟩
  obtain ⟨hmine, hnot⟩ := mine_only hi hj hne
  obtain ⟨d, hd'⟩ := mem_iff_deltas.mp hmine
  exact hnot (mem_iff_deltas.mpr ⟨d, (hd (cid i)).symm.trans hd'⟩)

/-! ## A follow-up that was lost -/

/-- The store that has the first two deltas. -/
def both : DagStore := insertWires prims Empty Golden.store [wire 0, wire 1]

/-- The store that only the second delta has reached. -/
def held : DagStore := insertWires prims Empty Golden.store [wire 1]

theorem insertWires_one {P : Prims} {F : Type} [FloatCodec F] (s : DagStore) (w : String) :
    insertWires P F s [w] = (s.insertWire P F w).2 := by
  simp only [insertWires, List.foldl_cons, List.foldl_nil]

theorem filled_both : Filled Golden.store [1, 0] both := by
  have h0 : Filled Golden.store [0] (insertWires prims Empty Golden.store [wire 0]) := by
    rw [insertWires_one]
    exact filled_one filled_start (by simp) (by simp) (by omega) (by simp) (.inl rfl)
  have h1 := filled_one (i := 1) h0 (by simp) (by simp) (by omega) (by simp) (.inr (by simp))
  rw [← insertWires_concat, List.singleton_append] at h1
  exact h1

theorem free_two : CollisionFree prims Empty {w | w ∈ [wire 0, wire 1] ++ [wire 1]} := by
  refine collisionFree (fun w hw => ?_)
  simp only [List.cons_append, List.nil_append, List.mem_cons, List.not_mem_nil, or_false,
    Set.mem_ofPred_eq] at hw
  rcases hw with rfl | rfl | rfl
  · exact ⟨0, by omega, rfl⟩
  · exact ⟨1, by omega, rfl⟩
  · exact ⟨1, by omega, rfl⟩

/-- A delta whose parents are missing is held. -/
theorem insertWire_held {P : Prims} {F : Type} [FloatCodec F] {s : DagStore} {w : String} {n : Node}
    (hread : readNode P F s.trust s.cfg.max_envelope_bytes w = some n) (hknow : s.knows n.cid = false)
    (hmissing : ∃ p ∈ n.delta.parents, p ∉ s.nodes) :
    (s.insertWire P F w).2.nodes = s.evict.nodes ∧ n.cid ∈ (s.insertWire P F w).2.orphans := by
  have hne : s.missing n.delta ≠ [] := by
    rw [ne_eq, missing_eq_nil]
    push Not
    exact hmissing
  have hstore : (s.insertWire P F w).2 = s.hold n := by
    rw [insertWire_store, hread]
    simp only [hknow, if_neg Bool.false_ne_true]
    rcases insertNode_cases (P := P) (F := F) s n with ⟨-, heq⟩ | ⟨hnil, -⟩ | ⟨hnil, -⟩
    · exact heq
    · exact absurd hnil hne
    · exact absurd hnil hne
  rw [hstore]
  exact ⟨rfl, StrMap.mem_insert.mpr (.inl rfl)⟩

theorem held_store : (∀ c, c ∉ held.nodes) ∧ cid 1 ∈ held.orphans := by
  have hread : readNode prims Empty Golden.store.trust Golden.store.cfg.max_envelope_bytes (wire 1)
      = some (node 1) := readNode_wire (by omega) trust_agent (by decide)
  have hempty : ∀ c, c ∉ Golden.store.nodes := fun c => Std.ExtTreeMap.not_mem_empty
  have hevict : Golden.store.evict = Golden.store := by
    refine evict_eq ?_
    simp [Golden.store, Golden.config]
  have hknow : ∀ c, Golden.store.knows c = false := fun c => by simp [knows, Golden.store]
  obtain ⟨hnodes, horphan⟩ := insertWire_held hread (hknow _)
    ⟨cid 0, by simp [node, delta], hempty _⟩
  rw [held, insertWires_one, hnodes, hevict]
  exact ⟨hempty, horphan⟩

theorem reached_both : Reached prims Empty [wire 0, wire 1] both :=
  ⟨Golden.config, Golden.store, Golden.new_config, rfl⟩

theorem reached_held : Reached prims Empty [wire 1] held :=
  ⟨Golden.config, Golden.store, Golden.new_config, rfl⟩

theorem heads_both {c : String} (hc : c ∈ both.heads) : c = cid 1 := by
  have hinv := reached_both.inv (fun w hw => List.mem_append_left [wire 1] hw) free_two
  obtain ⟨hnode, hleaf⟩ := (hinv.nodes.heads c).mp hc
  obtain ⟨n, hn⟩ := StrMap.mem_iff_get.mp hnode
  obtain ⟨i, hi, rfl, -⟩ := (filled_both.nodes c n).mp hn
  simp only [List.mem_cons, List.not_mem_nil, or_false] at hi
  rcases hi with rfl | rfl
  · rfl
  · refine absurd ?_ (hleaf (cid 1) (node 1) ((filled_both.nodes _ _).mpr ⟨1, by simp, rfl, rfl⟩))
    simp [node, delta]

theorem head_both : cid 1 ∈ both.heads := by
  have hinv := reached_both.inv (fun w hw => List.mem_append_left [wire 1] hw) free_two
  have hnode : ∀ i ∈ [1, 0], both.nodes[cid i]? = some (node i) := fun i hi =>
    (filled_both.nodes _ _).mpr ⟨i, hi, rfl, rfl⟩
  refine (hinv.nodes.heads _).mpr ⟨StrMap.mem_of_get (hnode 1 (by simp)), fun c n hn => ?_⟩
  obtain ⟨i, hi, -, rfl⟩ := (filled_both.nodes c n).mp hn
  simp only [List.mem_cons, List.not_mem_nil, or_false] at hi
  rcases hi with rfl | rfl
  · intro hp
    simp only [node, delta, if_neg Nat.one_ne_zero, List.mem_singleton] at hp
    exact absurd (cid_inj (by omega) (by omega) hp) (by omega)
  · simp [node, delta]

theorem onHave_held : onHave held (heads both) = none := by
  have hnil : wantsFor held (heads both) = [] := by
    refine wantsFor_eq_nil.mpr (fun h hh => ?_)
    rw [heads_both hh, knows, StrMap.contains_eq, StrMap.contains_eq,
      decide_eq_true held_store.2, Bool.or_true]
  rw [onHave]
  exact if_pos hnil

/-- A store that asks for nothing stays as it is. -/
theorem pullFollow_none {P : Prims} {F : Type} [FloatCodec F] {a b : DagStore}
    (h : onHave b (heads a) = none) (n : ℕ) : pullFollow P F b a n = (b, none) := by
  induction n with
  | zero => rw [pullFollow, pull, h]
  | succ n ih => rw [pullFollow, ih]

end LongHistory

/-- Two stores with 256 deltas in common and one of their own each never
get anything from each other. -/
theorem Sync.turns_stuck :
    Sync.Reached LongHistory.prims Empty (LongHistory.branchWires 256) (LongHistory.branch 256) ∧
    Sync.Reached LongHistory.prims Empty (LongHistory.branchWires 257) (LongHistory.branch 257) ∧
    DagStore.CollisionFree LongHistory.prims Empty
      {w | w ∈ LongHistory.branchWires 256 ++ LongHistory.branchWires 257} ∧
    (LongHistory.branch 256).trust = (LongHistory.branch 257).trust ∧
    (LongHistory.branch 256).orphans = ∅ ∧ (LongHistory.branch 257).orphans = ∅ ∧
    (Sync.nodeSet (LongHistory.branch 256) ∪ Sync.nodeSet (LongHistory.branch 257)).card
      ≤ (LongHistory.branch 256).cfg.max_nodes ∧
    (∃ c ∈ (LongHistory.branch 256).nodes, c ∉ (LongHistory.branch 257).nodes) ∧
    (¬ ∃ c ∈ (Sync.pull LongHistory.prims Empty (LongHistory.branch 257)
      (LongHistory.branch 256)).1.nodes, c ∉ (LongHistory.branch 257).nodes) ∧
    ∀ n, ¬ Sync.Same ((Sync.turn LongHistory.prims Empty)^[n]
      (LongHistory.branch 256, LongHistory.branch 257)) := by
  have h1 := LongHistory.filled_branch (.inl rfl : (256 : Nat) = 256 ∨ (256 : Nat) = 257)
  have h2 := LongHistory.filled_branch (.inr rfl : (257 : Nat) = 256 ∨ (257 : Nat) = 257)
  refine ⟨LongHistory.reached_branch 256, LongHistory.reached_branch 257,
    LongHistory.free_branches, h1.setup.1.trans h2.setup.1.symm, h1.orphans, h2.orphans,
    LongHistory.room_branches (.inl rfl) (.inr rfl),
    ⟨_, LongHistory.mine_only (.inl rfl) (.inr rfl) (by omega)⟩, ?_, fun n => ?_⟩
  · rw [LongHistory.pull_branch (.inl rfl) (.inr rfl) (by omega)]
    rintro ⟨c, hc, hnew⟩
    exact hnew hc
  · rcases LongHistory.turns_branch n with h | h <;> rw [h]
    · exact LongHistory.not_same_branch (.inl rfl) (.inr rfl) (by omega)
    · exact LongHistory.not_same_branch (.inr rfl) (.inl rfl) (by omega)

/-- The criterion of `turns_converge_iff` on these two stores. -/
theorem Sync.turns_converge_iff_branches :
    (∃ n, Sync.Same ((Sync.turn LongHistory.prims Empty)^[n]
      (LongHistory.branch 256, LongHistory.branch 257))) ↔
    ∀ n, Sync.Same ((Sync.turn LongHistory.prims Empty)^[n]
        (LongHistory.branch 256, LongHistory.branch 257)) ∨
      ∃ m, n ≤ m ∧ Sync.Moves ((Sync.turn LongHistory.prims Empty)^[m]
        (LongHistory.branch 256, LongHistory.branch 257)) := by
  have hroom := LongHistory.room_branches (i := 257) (j := 256) (.inr rfl) (.inl rfl)
  rw [Finset.union_comm] at hroom
  exact (Sync.turns_converge_iff (LongHistory.reached_branch 256) (LongHistory.reached_branch 257)
    LongHistory.free_branches (LongHistory.filled_branch (.inl rfl)).orphans
    (LongHistory.filled_branch (.inr rfl)).orphans
    (LongHistory.room_branches (.inl rfl) (.inr rfl)) hroom).2

/-- A store that holds a head as an orphan, the follow-up for its parent
having been lost, asks a peer that has both for nothing. -/
theorem Sync.followUps_lost :
    Sync.Reached LongHistory.prims Empty [LongHistory.wire 0, LongHistory.wire 1]
      LongHistory.both ∧
    Sync.Reached LongHistory.prims Empty [LongHistory.wire 1] LongHistory.held ∧
    DagStore.CollisionFree LongHistory.prims Empty
      {w | w ∈ [LongHistory.wire 0, LongHistory.wire 1] ++ [LongHistory.wire 1]} ∧
    (∃ h, h ∈ LongHistory.both.heads ∧ h ∉ LongHistory.held.nodes) ∧
    Sync.onHave LongHistory.held (Sync.heads LongHistory.both) = none ∧
    ∀ n, ¬ ∃ c ∈ (Sync.pullFollow LongHistory.prims Empty LongHistory.held
      LongHistory.both n).1.nodes, c ∉ LongHistory.held.nodes := by
  refine ⟨LongHistory.reached_both, LongHistory.reached_held, LongHistory.free_two,
    ⟨_, LongHistory.head_both, LongHistory.held_store.1 _⟩, LongHistory.onHave_held, fun n => ?_⟩
  rw [LongHistory.pullFollow_none LongHistory.onHave_held]
  rintro ⟨c, hc, hnew⟩
  exact hnew hc

/-- The criterion of `followUps_iff` on them: nothing will be supplied. -/
theorem Sync.followUps_iff_lost :
    ¬ ((∀ h, h ∈ LongHistory.both.heads → h ∈ LongHistory.held.nodes) ∨
      (LongHistory.held.nodes.size < LongHistory.held.cfg.max_nodes ∧
        Sync.Supplied LongHistory.prims Empty LongHistory.both LongHistory.held)) := by
  intro h
  obtain ⟨-, hnone⟩ := (Sync.followUps_iff LongHistory.reached_both LongHistory.reached_held
    LongHistory.free_two).1.mpr h
  exact LongHistory.held_store.1 _ (hnone LongHistory.onHave_held _ LongHistory.head_both)

end Secdogie.Graph
