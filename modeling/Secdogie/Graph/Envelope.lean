/-
# `Secdogie.Graph.Envelope` — did:key names, trust, and signed envelopes

A signed object is its payload plus `signer` (a did:key) and `sig` (base64
of a detached signature over the canonical bytes of the payload without
those two keys).

What comes from other crates is one record, `Prims`: the digest, base64, the
signature scheme and the `{:?}` form of a string.  The only law it carries
is the digest's length; everything else is assumed, where needed, by name.
-/
import Secdogie.Graph.CanonSound

namespace Secdogie.Graph

/-- What the graph crate takes from `sha2`, `base64`, `ed25519_dalek` and the
standard formatter. -/
structure Prims where
  /-- `Sha256::digest` -/
  sha256 : ByteArray → List UInt8
  sha256_length : ∀ data, (sha256 data).length = 32
  /-- `STANDARD.decode` -/
  b64decode : String → Option (List UInt8)
  /-- whether `VerifyingKey::from_bytes` takes the key -/
  keyOk : List UInt8 → Bool
  /-- `VerifyingKey::verify_strict` under a key, of a text and a signature -/
  verifyStrict : List UInt8 → ByteArray → List UInt8 → Bool
  /-- the `{:?}` form of a string, for error texts -/
  debugStr : String → String

/-! ## did:key -/

def ED25519_MULTICODEC : List Nat := [0xed, 0x01]
def ALPHABET : List Char := "123456789ABCDEFGHJKLMNPQRSTUVWXYZabcdefghijkmnopqrstuvwxyz".toList
def MAX_ENCODED : Nat := 64

def b58Index (c : Char) : Option Nat := ALPHABET.findIdx? (· == c)

/-- The bytes of a carry, least significant first. -/
def carryBytes : Nat → Nat → List Nat
  | 0, _ => []
  | fuel + 1, carry =>
      if carry = 0 then [] else carry % 256 :: carryBytes fuel (carry / 256)

/-- `le * 58 + carry`, on the little-endian base-256 accumulator.  A carry
is a `u32`, hence at most four bytes. -/
def b58Step : List Nat → Nat → List Nat
  | [], carry => carryBytes 4 carry
  | b :: le, carry => (carry + b * 58) % 256 :: b58Step le ((carry + b * 58) / 256)

def b58decode (s : List Char) : Option (List Nat) := do
  let le ← s.foldlM (fun le c => (b58Index c).map (b58Step le)) []
  pure ((le ++ List.replicate (s.takeWhile (· == '1')).length 0).reverse)

/-- The 32-byte Ed25519 public key a `did:key:z...` names. -/
def pubkeyFromDid (did : String) : Except String (List UInt8) :=
  let tag := "did:key:z".toList
  let enc := did.toList.drop tag.length
  if !tag.isPrefixOf did.toList || enc = [] || MAX_ENCODED < byteLen enc then
    .error "not a did:key (base58btc / Ed25519)"
  else
    match b58decode enc with
    | none => .error "invalid base58 in did:key"
    | some raw =>
        if raw.length ≠ 34 ∨ raw.take 2 ≠ ED25519_MULTICODEC then
          .error "did:key is not a 32-byte Ed25519 key"
        else .ok ((raw.drop 2).map Nat.toUInt8)

/-! ## Trust -/

/-- The set of DIDs whose envelopes are accepted.  Zero trust: an empty set
cannot be constructed, nor one that holds something other than a did:key. -/
structure Trust where
  dids : List String
  nonempty : dids ≠ []
  did_keys : ∀ d ∈ dids, (pubkeyFromDid d).isOk = true

def Trust.new (dids : List String) : Except String Trust :=
  if hk : ∀ d ∈ dids, (pubkeyFromDid d).isOk = true then
    if hne : dids ≠ [] then .ok ⟨dids, hne, hk⟩
    else .error "no trusted DIDs configured (zero trust: an empty set trusts no one)"
  else .error "trusted DID is not an Ed25519 did:key"

def Trust.contains (t : Trust) (did : String) : Bool := t.dids.contains did

/-! ## Envelopes -/

inductive EnvelopeError where
  | notAnEnvelope
  | badSigner
  | badSignature
  | invalidSignature
deriving DecidableEq

def EnvelopeError.reason : EnvelopeError → String
  | .notAnEnvelope => "missing or malformed signer/sig envelope"
  | .badSigner => "signer is not an Ed25519 did:key"
  | .badSignature => "sig is not base64 of 64 bytes"
  | .invalidSignature => "invalid signature"

section

variable {F : Type} [FloatCodec F]

/-- A payload whose signature verified. -/
structure Verified (F : Type) where
  signer : String
  payload : Value F
  payload_bytes : ByteArray

/-- The envelope's members without `signer` and `sig`. -/
def payloadOf (m : List (String × Value F)) : Value F :=
  .obj (m.filter (fun e => e.1 != "signer" && e.1 != "sig"))

/-- Verifies the signature over the payload.  Does not consult any trust
set. -/
def verify (P : Prims) (m : List (String × Value F)) : Except EnvelopeError (Verified F) :=
  match objGet m "signer", objGet m "sig" with
  | some (.str signer), some (.str sig_b64) =>
      match pubkeyFromDid signer with
      | .error _ => .error .badSigner
      | .ok pk =>
          match P.b64decode sig_b64 with
          | none => .error .badSignature
          | some sig =>
              if sig.length ≠ 64 then .error .badSignature
              else if !P.keyOk pk then .error .badSigner
              else
                let payload := payloadOf m
                let bytes := toBytes payload
                if P.verifyStrict pk bytes sig then .ok ⟨signer, payload, bytes⟩
                else .error .invalidSignature
  | _, _ => .error .notAnEnvelope

/-- What a verified envelope is: named by its own `signer` member, with the
rest of it as payload. -/
theorem verify_ok {P : Prims} {m : List (String × Value F)} {ver : Verified F}
    (h : verify P m = .ok ver) :
    objGet m "signer" = some (.str ver.signer) ∧ (∃ s, objGet m "sig" = some (.str s)) ∧
      ver.payload = payloadOf m ∧ ver.payload_bytes = toBytes (payloadOf m) := by
  unfold verify at h
  split at h
  · next signer sig hsigner hsig =>
    split at h
    · cases h
    split at h
    · cases h
    dsimp only at h
    split_ifs at h
    obtain rfl := Except.ok.inj h
    exact ⟨hsigner, ⟨sig, hsig⟩, rfl, rfl⟩
  · cases h

end

end Secdogie.Graph
