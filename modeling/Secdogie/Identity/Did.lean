/-
# `Secdogie.Identity.Did` — a DID is one text for one key

`did:key` is written twice: `graph` keeps a buffer of digits that it multiplies
in place, `identity` computes with one big number.  Both are the recoding of
`Secdogie.Lib.Radix`, so they agree on every input; and since recoding can be
undone, a DID that is accepted is the text that its key encodes to.
-/
import Secdogie.Lib.Radix

namespace Secdogie.Identity.Did

/-- `ALPHABET` and `_B58_ALPHABET` -/
def ALPHABET : List Char := "123456789ABCDEFGHJKLMNPQRSTUVWXYZabcdefghijkmnopqrstuvwxyz".toList

def PREFIX : List Char := "did:key:z".toList

def ED25519_MULTICODEC : List UInt8 := [0xed, 0x01]

/-- `ALPHABET[d]` -/
def symbol (d : Nat) : Char := ALPHABET.getD d ' '

/-- A public key, `[u8; 32]`. -/
abbrev Key := { pk : List UInt8 // pk.length = 32 }

/-! ## In place -/

namespace Rust

def MAX_ENCODED : Nat := 64

/-- The bytes of a `str`. -/
def bytes (s : List Char) : List UInt8 := s.flatMap String.utf8EncodeChar

def b58_index (c : UInt8) : Option Nat := (bytes ALPHABET).findIdx? (· == c)

def b58decode (s : List Char) : Option (List UInt8) :=
  let le := (bytes s).foldlM (fun le c =>
    (b58_index c).map fun carry => mulAdd 256 (by decide) 58 carry le) []
  let zeros := ((bytes s).takeWhile (· = 49)).length
  le.map fun le => (le ++ List.replicate zeros 0).reverse.map UInt8.ofNat

def b58encode (data : List UInt8) : List Char :=
  let digits := data.foldl (fun digits byte => mulAdd 58 (by decide) 256 byte.toNat digits) []
  let zeros := (data.takeWhile (· = 0)).length
  List.replicate zeros '1' ++ digits.reverse.map symbol

def pubkey_from_did (did : List Char) : Except String Key :=
  if PREFIX.isPrefixOf did then
    let enc := did.drop PREFIX.length
    if enc = [] ∨ MAX_ENCODED < (bytes enc).length then
      .error "not a did:key (base58btc / Ed25519)"
    else
      match b58decode enc with
      | none => .error "invalid base58 in did:key"
      | some raw =>
          if h : raw.length = 34 ∧ raw.take 2 = ED25519_MULTICODEC then
            .ok ⟨raw.drop 2, by rw [List.length_drop, h.1]⟩
          else .error "did:key is not a 32-byte Ed25519 key"
  else .error "not a did:key (base58btc / Ed25519)"

def did_from_pubkey (pk : Key) : List Char := PREFIX ++ b58encode (ED25519_MULTICODEC ++ pk)

end Rust

/-! ## With one number -/

namespace Python

/-- `_B58_INDEX` -/
def _B58_INDEX (c : Char) : Option Nat := ALPHABET.findIdx? (· == c)

/-- `while n > 0: n, rem = divmod(n, 58); out = _B58_ALPHABET[rem] + out` -/
def prepend (n : Nat) (out : List Char) : List Char :=
  if 0 < n then prepend (n / 58) (symbol (n % 58) :: out) else out

def b58encode (data : List UInt8) : List Char :=
  let n := fromBig 256 (data.map UInt8.toNat)
  List.replicate (data.takeWhile (· = 0)).length '1' ++ prepend n []

/-- `n.to_bytes(length, "big")` -/
def to_bytes (n length : Nat) : List UInt8 :=
  (List.range length).reverse.map fun i => UInt8.ofNat (n / 256 ^ i)

variable (repr : Char → String)

/-- The text of the error has the character as `repr` writes it. -/
def b58decode (s : List Char) : Except String (List UInt8) := do
  let n ← s.foldlM (fun n ch =>
    match _B58_INDEX ch with
    | some i => .ok (n * 58 + i)
    | none => .error ("invalid base58 character " ++ repr ch)) 0
  let body := if n = 0 then [] else to_bytes n ((n.size + 7) / 8)
  let pad := (s.takeWhile (· = '1')).length
  return List.replicate pad 0 ++ body

def did_key_from_pubkey (pk : List UInt8) : Except String (List Char) :=
  if pk.length ≠ 32 then
    .error ("Ed25519 public key must be 32 bytes, got " ++ toString pk.length)
  else .ok (PREFIX ++ b58encode (ED25519_MULTICODEC ++ pk))

def pubkey_from_did (did : List Char) : Except String (List UInt8) :=
  if PREFIX.isPrefixOf did then do
    let raw ← b58decode repr (did.drop PREFIX.length)
    if raw.take 2 ≠ ED25519_MULTICODEC then
      .error "did:key is not tagged as Ed25519 (0xed multicodec)"
    else if (raw.drop 2).length ≠ 32 then
      .error ("Ed25519 did:key must wrap a 32-byte key, got " ++ toString (raw.drop 2).length)
    else .ok (raw.drop 2)
  else .error "not a did:key (base58btc / Ed25519) DID"

end Python

/-! ## The texts -/

/-- The digits that a text stands for, if it is of the alphabet. -/
def indexes (s : List Char) : Option (List Nat) := s.mapM Python._B58_INDEX

theorem symbol_index : ∀ d < 58, Python._B58_INDEX (symbol d) = some d := by decide

theorem index_some {c : Char} {d : Nat} (h : Python._B58_INDEX c = some d) :
    d < 58 ∧ c = symbol d := by
  obtain ⟨hd, hc, -⟩ := List.findIdx?_eq_some_iff_getElem.mp h
  refine ⟨hd, ?_⟩
  rw [symbol, List.getD_eq_getElem?_getD, List.getElem?_eq_getElem hd, Option.getD_some]
  exact (beq_iff_eq.mp hc).symm

theorem indexes_map_symbol {ds : List Nat} (h : ∀ d ∈ ds, d < 58) :
    indexes (ds.map symbol) = some ds := by
  induction ds with
  | nil => rfl
  | cons d ds ih =>
      rw [List.map_cons, indexes, List.mapM_cons, symbol_index d (h d List.mem_cons_self)]
      have hrest := ih fun d hd => h d (List.mem_cons_of_mem _ hd)
      rw [indexes] at hrest
      rw [hrest]
      rfl

theorem indexes_some {s : List Char} {ds : List Nat} (h : indexes s = some ds) :
    (∀ d ∈ ds, d < 58) ∧ s = ds.map symbol := by
  induction s generalizing ds with
  | nil =>
      obtain rfl := Option.some.inj h
      exact ⟨fun _ hd => (List.not_mem_nil hd).elim, rfl⟩
  | cons c s ih =>
      rw [indexes, List.mapM_cons] at h
      cases hc : Python._B58_INDEX c with
      | none => rw [hc] at h; cases h
      | some d =>
          cases hs : s.mapM Python._B58_INDEX with
          | none => rw [hc, hs] at h; cases h
          | some rest =>
              rw [hc, hs] at h
              obtain rfl := Option.some.inj h
              obtain ⟨hlt, rfl⟩ := index_some hc
              obtain ⟨hrest, rfl⟩ := ih hs
              exact ⟨fun e he => (List.mem_cons.mp he).elim (· ▸ hlt) (hrest e), rfl⟩

/-! ## The same decoding -/

/-- The bytes of a text of digits. -/
def decoded (ds : List Nat) : List UInt8 := (recode 58 256 ds).map UInt8.ofNat

theorem b58_index_symbol : ∀ d < 58, ∃ b, String.utf8EncodeChar (symbol d) = [b] ∧
    Rust.b58_index b = some d ∧ ((b == 49) = decide (d = 0)) := by
  decide +kernel

theorem ascii_index : ∀ n ≤ 127, Rust.b58_index (UInt8.ofNat n) = Python._B58_INDEX (Char.ofNat n) := by
  decide +kernel

theorem high_index : ∀ n < 256, 128 ≤ n → Rust.b58_index (UInt8.ofNat n) = none := by
  decide +kernel

/-- A character that is not of the alphabet starts with a byte that is not. -/
theorem index_none {c : Char} (h : Python._B58_INDEX c = none) :
    ∃ b rest, String.utf8EncodeChar c = b :: rest ∧ Rust.b58_index b = none := by
  have hhigh : ∀ n, 128 ≤ n → n < 256 → Rust.b58_index (UInt8.ofNat n) = none :=
    fun n hn hlt => high_index n hlt hn
  rw [String.utf8EncodeChar]
  split_ifs with h₁ h₂ h₃
  · refine ⟨_, _, rfl, ?_⟩
    rw [ascii_index _ h₁]
    have hc : Char.ofNat c.val.toNat = c := Char.ofNat_toNat c
    rw [hc, h]
  · exact ⟨_, _, rfl, hhigh _ (by omega) (by omega)⟩
  · exact ⟨_, _, rfl, hhigh _ (by omega) (by omega)⟩
  · exact ⟨_, _, rfl, hhigh _ (by omega) (by omega)⟩

/-- Both read the same digits. -/
theorem mapM_bytes (s : List Char) : (Rust.bytes s).mapM Rust.b58_index = indexes s := by
  induction s with
  | nil => rfl
  | cons c s ih =>
      rw [Rust.bytes, List.flatMap_cons, indexes, List.mapM_cons]
      cases hc : Python._B58_INDEX c with
      | none =>
          obtain ⟨b, rest, hbytes, hb⟩ := index_none hc
          rw [hbytes, List.cons_append, List.mapM_cons, hb]
          rfl
      | some d =>
          obtain ⟨hd, rfl⟩ := index_some hc
          obtain ⟨b, hbytes, hb, -⟩ := b58_index_symbol d hd
          rw [hbytes, List.singleton_append, List.mapM_cons, hb]
          rw [Rust.bytes, indexes] at ih
          rw [ih]

/-- A fold that reads each element first. -/
theorem foldlM_map {α β γ : Type} (f : α → Option β) (g : γ → β → γ) (l : List α) (init : γ) :
    l.foldlM (fun acc a => (f a).map (g acc)) init = (l.mapM f).map (fun bs => bs.foldl g init) := by
  induction l generalizing init with
  | nil => rfl
  | cons a l ih =>
      rw [List.foldlM_cons, List.mapM_cons]
      cases f a with
      | none => rfl
      | some b =>
          rw [Option.map_some, Option.bind_eq_bind, Option.bind_some, ih]
          cases l.mapM f with
          | none => rfl
          | some bs => rfl

theorem leadingZeros_cons (d : Nat) (ds : List Nat) :
    leadingZeros (d :: ds) = if d = 0 then leadingZeros ds + 1 else 0 := by
  rw [leadingZeros, List.takeWhile_cons]
  by_cases hd : d = 0
  · rw [if_pos hd, decide_eq_true hd, if_pos rfl]
    rfl
  · rw [if_neg hd, decide_eq_false hd]
    rfl

theorem zeros_bytes {ds : List Nat} (h : ∀ d ∈ ds, d < 58) :
    ((Rust.bytes (ds.map symbol)).takeWhile (· = 49)).length = leadingZeros ds := by
  induction ds with
  | nil => rfl
  | cons d ds ih =>
      obtain ⟨b, hbytes, -, hzero⟩ := b58_index_symbol d (h d List.mem_cons_self)
      have hrest := ih fun d hd => h d (List.mem_cons_of_mem _ hd)
      have hb : decide (b = 49) = decide (d = 0) := by
        rw [← hzero]
        exact (beq_eq_decide b 49).symm
      rw [leadingZeros_cons, List.map_cons, Rust.bytes, List.flatMap_cons, hbytes,
        List.singleton_append, List.takeWhile_cons, hb]
      rw [Rust.bytes] at hrest
      by_cases hd : d = 0
      · rw [decide_eq_true hd, if_pos rfl, if_pos hd, List.length_cons, hrest]
      · rw [decide_eq_false hd, if_neg hd]
        rfl

theorem rust_decode (s : List Char) : Rust.b58decode s = (indexes s).map decoded := by
  rw [Rust.b58decode, foldlM_map, mapM_bytes]
  cases hs : indexes s with
  | none => rfl
  | some ds =>
      obtain ⟨hlt, rfl⟩ := indexes_some hs
      rw [Option.map_some, Option.map_some, Option.map_some, foldl_mulAdd (by decide) (by decide),
        zeros_bytes hlt, decoded, recode, List.reverse_append, List.reverse_replicate]

/-- `to_bytes` of as many bytes as the number has. -/
theorem to_bytes_size (n : Nat) (hn : n ≠ 0) :
    Python.to_bytes n ((n.size + 7) / 8) = (Nat.digits 256 n).reverse.map UInt8.ofNat := by
  have hpow : ∀ k, (256 : Nat) ^ k = 2 ^ (8 * k) := fun k => by
    rw [pow_mul]
    rfl
  have hle : (Nat.digits 256 n).length ≤ (n.size + 7) / 8 := by
    rw [Nat.digits_length_le_iff (by decide), hpow, ← Nat.size_le]
    omega
  have hge : (n.size + 7) / 8 ≤ (Nat.digits 256 n).length := by
    have hpos : 0 < n.size := Nat.size_pos.mpr (Nat.pos_of_ne_zero hn)
    have hlast : (n.size + 7) / 8 - 1 < (Nat.digits 256 n).length := by
      rw [Nat.lt_digits_length_iff (by decide), hpow, ← Nat.lt_size]
      omega
    omega
  have hdigits : Nat.digits 256 n =
      (List.range ((n.size + 7) / 8)).map fun i => n / 256 ^ i % 256 := by
    refine List.ext_getElem ?_ fun i hi _ => ?_
    · rw [List.length_map, List.length_range]
      exact Nat.le_antisymm hle hge
    · rw [List.getElem_map, List.getElem_range, ← Nat.getD_digits n i (by decide),
        List.getD_eq_getElem?_getD, List.getElem?_eq_getElem hi, Option.getD_some]
  have hbyte : ∀ i, UInt8.ofNat (n / 256 ^ i) = UInt8.ofNat (n / 256 ^ i % 256) := fun i =>
    UInt8.toNat_inj.mp (by rw [UInt8.toNat_ofNat', UInt8.toNat_ofNat', Nat.mod_mod])
  rw [hdigits, Python.to_bytes, ← List.map_reverse, List.map_map]
  exact List.map_congr_left fun i _ => hbyte i

theorem python_fold (repr : Char → String) (s : List Char) (n : Nat) :
    (s.foldlM (fun n ch =>
      match Python._B58_INDEX ch with
      | some i => .ok (n * 58 + i)
      | none => .error ("invalid base58 character " ++ repr ch)) n : Except String Nat).toOption =
      (indexes s).map fun ds => ds.foldl (fun n d => n * 58 + d) n := by
  induction s generalizing n with
  | nil => rfl
  | cons c s ih =>
      rw [List.foldlM_cons, indexes, List.mapM_cons]
      cases hc : Python._B58_INDEX c with
      | none => rfl
      | some d =>
          have hrest := ih (n * 58 + d)
          rw [indexes] at hrest
          dsimp only [bind, Except.bind, Option.bind]
          rw [hrest]
          cases s.mapM Python._B58_INDEX with
          | none => rfl
          | some ds => rfl

theorem pad_symbols {ds : List Nat} (h : ∀ d ∈ ds, d < 58) :
    ((ds.map symbol).takeWhile (· = '1')).length = leadingZeros ds := by
  have hone : ∀ d < 58, (symbol d = '1' ↔ d = 0) := by decide
  induction ds with
  | nil => rfl
  | cons d ds ih =>
      have hrest := ih fun d hd => h d (List.mem_cons_of_mem _ hd)
      rw [leadingZeros_cons, List.map_cons, List.takeWhile_cons,
        decide_eq_decide.mpr (hone d (h d List.mem_cons_self))]
      by_cases hd : d = 0
      · rw [decide_eq_true hd, if_pos rfl, if_pos hd, List.length_cons, hrest]
      · rw [decide_eq_false hd, if_neg hd]
        rfl

theorem python_decode (repr : Char → String) (s : List Char) :
    (Python.b58decode repr s).toOption = (indexes s).map decoded := by
  have hfold := python_fold repr s 0
  rw [Python.b58decode]
  cases hs : indexes s with
  | none =>
      rw [hs] at hfold
      generalize (s.foldlM _ 0 : Except String Nat) = result at hfold ⊢
      cases result with
      | error e => rfl
      | ok n => cases hfold
  | some ds =>
      rw [hs] at hfold
      generalize (s.foldlM _ 0 : Except String Nat) = result at hfold ⊢
      cases result with
      | error e => cases hfold
      | ok n =>
          obtain rfl : n = fromBig 58 ds := Option.some.inj hfold
          obtain ⟨hlt, rfl⟩ := indexes_some hs
          dsimp only [bind, Except.bind, pure, Except.pure, Except.toOption, Option.map]
          rw [pad_symbols hlt, decoded, recode, List.map_append, List.map_replicate]
          congr 2
          by_cases hzero : fromBig 58 ds = 0
          · rw [if_pos hzero, hzero, Nat.digits_zero]
            rfl
          · rw [if_neg hzero, to_bytes_size _ hzero]

/-! ## The same encoding -/

/-- The text of some bytes. -/
def encoded (data : List UInt8) : List Char :=
  (recode 256 58 (data.map UInt8.toNat)).map symbol

theorem zeros_data (data : List UInt8) :
    (data.takeWhile (· = 0)).length = leadingZeros (data.map UInt8.toNat) := by
  have hzero : ∀ b : UInt8, b = 0 ↔ b.toNat = 0 := fun b => UInt8.toNat_inj.symm
  induction data with
  | nil => rfl
  | cons b data ih =>
      rw [List.map_cons, leadingZeros_cons, List.takeWhile_cons, decide_eq_decide.mpr (hzero b)]
      by_cases hb : b.toNat = 0
      · rw [decide_eq_true hb, if_pos rfl, if_pos hb, List.length_cons, ih]
      · rw [decide_eq_false hb, if_neg hb]
        rfl

theorem rust_encode (data : List UInt8) : Rust.b58encode data = encoded data := by
  have hfold := @foldl_mulAdd 58 256 (by decide) (by decide) (data.map UInt8.toNat)
  rw [List.foldl_map] at hfold
  rw [Rust.b58encode, hfold, zeros_data, encoded, recode, List.map_append, List.map_replicate]
  rfl

theorem prepend_eq (n : Nat) (out : List Char) :
    Python.prepend n out = (Nat.digits 58 n).reverse.map symbol ++ out := by
  induction n using Nat.strong_induction_on generalizing out with
  | _ n ih =>
      rw [Python.prepend]
      split_ifs with hn
      · rw [ih _ (Nat.div_lt_self hn (by decide)), Nat.digits_def' (by decide) hn,
          List.reverse_cons, List.map_append, List.append_assoc]
        rfl
      · rw [Nat.eq_zero_of_not_pos hn, Nat.digits_zero]
        rfl

theorem python_encode (data : List UInt8) : Python.b58encode data = encoded data := by
  rw [Python.b58encode, prepend_eq, List.append_nil, zeros_data, encoded, recode, List.map_append,
    List.map_replicate]
  rfl

/-! ## One text for the bytes -/

theorem toNat_ofNat_map {ds : List Nat} (h : ∀ d ∈ ds, d < 256) :
    (ds.map UInt8.ofNat).map UInt8.toNat = ds := by
  rw [List.map_map]
  refine (List.map_congr_left fun d hd => ?_).trans (List.map_id ds)
  exact (UInt8.toNat_ofNat').trans (Nat.mod_eq_of_lt (h d hd))

theorem ofNat_toNat_map (data : List UInt8) :
    (data.map UInt8.toNat).map UInt8.ofNat = data := by
  rw [List.map_map]
  exact (List.map_congr_left fun b _ => UInt8.ofNat_toNat).trans (List.map_id data)

theorem toNat_lt {data : List UInt8} : ∀ d ∈ data.map UInt8.toNat, d < 256 := by
  intro d hd
  obtain ⟨b, -, rfl⟩ := List.mem_map.mp hd
  exact b.toNat_lt

theorem encoded_decoded {ds : List Nat} (h : ∀ d ∈ ds, d < 58) :
    encoded (decoded ds) = ds.map symbol := by
  rw [encoded, decoded, toNat_ofNat_map (recode_lt (by decide) ds), recode_recode (by decide) h]

theorem decoded_encoded (data : List UInt8) :
    (indexes (encoded data)).map decoded = some data := by
  rw [encoded, indexes_map_symbol (recode_lt (by decide) _), Option.map_some, decoded,
    recode_recode (by decide) toNat_lt, ofNat_toNat_map]

/-! ## Keys -/

theorem head_zero {raw : List UInt8} (h : raw.take 2 = ED25519_MULTICODEC) :
    leadingZeros (raw.map UInt8.toNat) = 0 := by
  match raw, h with
  | b :: c :: rest, h =>
      obtain ⟨rfl, -⟩ := List.cons.inj h
      rw [List.map_cons, leadingZeros_cons]
      rfl

/-- What decodes to a tagged key is short, so that the bound on the text
excludes none. -/
theorem length_of_key {ds : List Nat} (hlt : ∀ d ∈ ds, d < 58)
    (hlen : (decoded ds).length = 34) (htag : (decoded ds).take 2 = ED25519_MULTICODEC) :
    ds.length ≤ 64 := by
  have hnat : (decoded ds).map UInt8.toNat = recode 58 256 ds :=
    toNat_ofNat_map (recode_lt (by decide) ds)
  have hzeros := head_zero htag
  rw [hnat] at hzeros
  have hrlen : (recode 58 256 ds).length ≤ 34 := by
    rw [decoded, List.length_map] at hlen
    exact hlen.le
  have hback : (recode 256 58 (recode 58 256 ds)).length ≤ 64 :=
    length_recode_le (by decide) (by decide) (recode_lt (by decide) ds) hzeros hrlen (by decide)
  rwa [recode_recode (by decide) hlt] at hback

theorem length_bytes {ds : List Nat} (h : ∀ d ∈ ds, d < 58) :
    (Rust.bytes (ds.map symbol)).length = ds.length := by
  induction ds with
  | nil => rfl
  | cons d ds ih =>
      obtain ⟨b, hbytes, -⟩ := b58_index_symbol d (h d List.mem_cons_self)
      have hrest := ih fun d hd => h d (List.mem_cons_of_mem _ hd)
      rw [Rust.bytes] at hrest
      rw [List.map_cons, Rust.bytes, List.flatMap_cons, hbytes, List.singleton_append,
        List.length_cons, List.length_cons, hrest]

/-- The text after the prefix names the key. -/
def Names (enc : List Char) (pk : List UInt8) : Prop :=
  ∃ ds, indexes enc = some ds ∧ pk.length = 32 ∧ decoded ds = ED25519_MULTICODEC ++ pk

theorem names_raw {pk raw : List UInt8} (hraw : raw = ED25519_MULTICODEC ++ pk)
    (hpk : pk.length = 32) :
    raw.length = 34 ∧ raw.take 2 = ED25519_MULTICODEC ∧ raw.drop 2 = pk := by
  rw [hraw, List.length_append, hpk]
  exact ⟨rfl, rfl, rfl⟩

theorem prefix_iff {did : List Char} : PREFIX.isPrefixOf did = true ↔ ∃ enc, did = PREFIX ++ enc := by
  rw [List.isPrefixOf_iff_prefix]
  exact ⟨fun ⟨enc, h⟩ => ⟨enc, h.symm⟩, fun ⟨enc, h⟩ => ⟨enc, h.symm⟩⟩

theorem rust_accepts {did : List Char} {pk : Key} :
    Rust.pubkey_from_did did = .ok pk ↔ ∃ enc, did = PREFIX ++ enc ∧ Names enc pk := by
  constructor
  · intro h
    rw [Rust.pubkey_from_did] at h
    split_ifs at h with hpre
    obtain ⟨enc, rfl⟩ := prefix_iff.mp hpre
    rw [List.drop_left] at h
    dsimp only at h
    split_ifs at h with hbound
    rw [rust_decode] at h
    refine ⟨enc, rfl, ?_⟩
    cases hds : indexes enc with
    | none => rw [hds] at h; cases h
    | some ds =>
        rw [hds] at h
        dsimp only [Option.map] at h
        split_ifs at h with hraw
        obtain rfl := Except.ok.inj h
        refine ⟨ds, hds, by rw [List.length_drop, hraw.1], ?_⟩
        conv_lhs => rw [← List.take_append_drop 2 (decoded ds), hraw.2]
  · rintro ⟨enc, rfl, ds, hds, hpk, hraw⟩
    obtain ⟨hlen, htag, hdrop⟩ := names_raw hraw hpk
    obtain ⟨hlt, rfl⟩ := indexes_some hds
    have hbound : ¬ (ds.map symbol = [] ∨
        Rust.MAX_ENCODED < (Rust.bytes (ds.map symbol)).length) := by
      rw [length_bytes hlt]
      rintro (hnil | hlong)
      · rw [List.map_eq_nil_iff.mp hnil] at hlen
        cases hlen
      · exact absurd hlong (Nat.not_lt.mpr (length_of_key hlt hlen htag))
    rw [Rust.pubkey_from_did, if_pos (prefix_iff.mpr ⟨_, rfl⟩), List.drop_left, if_neg hbound,
      rust_decode, hds]
    dsimp only [Option.map]
    rw [dif_pos ⟨hlen, htag⟩]
    exact congrArg Except.ok (Subtype.ext hdrop)

theorem python_accepts (repr : Char → String) {did : List Char} {pk : List UInt8} :
    Python.pubkey_from_did repr did = .ok pk ↔ ∃ enc, did = PREFIX ++ enc ∧ Names enc pk := by
  constructor
  · intro h
    rw [Python.pubkey_from_did] at h
    split_ifs at h with hpre
    obtain ⟨enc, rfl⟩ := prefix_iff.mp hpre
    rw [List.drop_left] at h
    refine ⟨enc, rfl, ?_⟩
    have hdecode := python_decode repr enc
    cases hraw : Python.b58decode repr enc with
    | error e => rw [hraw] at h; cases h
    | ok raw =>
        rw [hraw] at h hdecode
        obtain ⟨ds, hds, rfl⟩ := Option.map_eq_some_iff.mp hdecode.symm
        dsimp only [bind, Except.bind] at h
        split_ifs at h with htag hlen
        obtain rfl := Except.ok.inj h
        refine ⟨ds, hds, of_not_not hlen, ?_⟩
        conv_lhs => rw [← List.take_append_drop 2 (decoded ds), of_not_not htag]
  · rintro ⟨enc, rfl, ds, hds, hpk, hraw⟩
    obtain ⟨-, htag, hdrop⟩ := names_raw hraw hpk
    have hdecode := python_decode repr enc
    rw [hds] at hdecode
    rw [Python.pubkey_from_did, if_pos (prefix_iff.mpr ⟨_, rfl⟩), List.drop_left]
    cases hresult : Python.b58decode repr enc with
    | error e => rw [hresult] at hdecode; cases hdecode
    | ok raw =>
        rw [hresult] at hdecode
        obtain rfl : raw = decoded ds := Option.some.inj hdecode
        dsimp only [bind, Except.bind]
        rw [if_neg (fun hne => hne htag), hdrop, if_neg (fun hne => hne hpk)]

/-- A text names the key it is the encoding of. -/
theorem names_iff {enc : List Char} {pk : List UInt8} :
    Names enc pk ↔ pk.length = 32 ∧ encoded (ED25519_MULTICODEC ++ pk) = enc := by
  constructor
  · rintro ⟨ds, hds, hpk, hraw⟩
    obtain ⟨hlt, rfl⟩ := indexes_some hds
    exact ⟨hpk, by rw [← hraw, encoded_decoded hlt]⟩
  · rintro ⟨hpk, rfl⟩
    obtain ⟨ds, hds, hraw⟩ := Option.map_eq_some_iff.mp (decoded_encoded (ED25519_MULTICODEC ++ pk))
    exact ⟨ds, hds, hpk, hraw⟩

theorem rust_decode_iff {s : List Char} {data : List UInt8} :
    Rust.b58decode s = some data ↔ Rust.b58encode data = s := by
  rw [rust_decode, rust_encode]
  constructor
  · intro h
    obtain ⟨ds, hds, rfl⟩ := Option.map_eq_some_iff.mp h
    obtain ⟨hlt, rfl⟩ := indexes_some hds
    exact encoded_decoded hlt
  · rintro rfl
    exact decoded_encoded data

theorem names_did {did : List Char} {pk : List UInt8} :
    (∃ enc, did = PREFIX ++ enc ∧ Names enc pk) ↔
      pk.length = 32 ∧ PREFIX ++ encoded (ED25519_MULTICODEC ++ pk) = did := by
  constructor
  · rintro ⟨enc, rfl, hnames⟩
    obtain ⟨hpk, rfl⟩ := names_iff.mp hnames
    exact ⟨hpk, rfl⟩
  · rintro ⟨hpk, rfl⟩
    exact ⟨_, rfl, names_iff.mpr ⟨hpk, rfl⟩⟩

/-- The two implementations of base58 give the same text for all bytes and the
same bytes for all texts, or refuse them both; they name the same keys by the
same DIDs; and a DID that they accept is the text of its key. -/
theorem did_canonical (repr : Char → String) :
    (∀ data, Rust.b58encode data = Python.b58encode data) ∧
    (∀ s, Rust.b58decode s = (Python.b58decode repr s).toOption) ∧
    (∀ s data, Rust.b58decode s = some data ↔ Rust.b58encode data = s) ∧
    (∀ did (pk : Key), Rust.pubkey_from_did did = .ok pk ↔
      Python.pubkey_from_did repr did = .ok pk.1) ∧
    (∀ did pk, Python.pubkey_from_did repr did = .ok pk → pk.length = 32) ∧
    (∀ did (pk : Key), Rust.pubkey_from_did did = .ok pk ↔ Rust.did_from_pubkey pk = did) ∧
    (∀ did pk, Python.pubkey_from_did repr did = .ok pk ↔
      Python.did_key_from_pubkey pk = .ok did) := by
  refine ⟨fun data => ?_, fun s => ?_, fun s data => rust_decode_iff, fun did pk => ?_,
    fun did pk h => ?_, fun did pk => ?_, fun did pk => ?_⟩
  · rw [rust_encode, python_encode]
  · rw [rust_decode, python_decode]
  · rw [rust_accepts, python_accepts]
  · exact (names_did.mp ((python_accepts repr).mp h)).1
  · rw [rust_accepts, names_did, Rust.did_from_pubkey, rust_encode]
    exact ⟨And.right, fun h => ⟨pk.2, h⟩⟩
  · rw [python_accepts, names_did, Python.did_key_from_pubkey, python_encode]
    by_cases hpk : pk.length = 32
    · rw [if_neg (fun hne => hne hpk)]
      exact ⟨fun h => congrArg Except.ok h.2, fun h => ⟨hpk, Except.ok.inj h⟩⟩
    · rw [if_pos hpk]
      exact ⟨fun h => absurd h.1 hpk, fun h => by cases h⟩

end Secdogie.Identity.Did
