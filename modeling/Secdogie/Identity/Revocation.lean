/-
# `Secdogie.Identity.Revocation` — what the masters sign

A revocation names DIDs that are no longer authorized.  Only masters can sign
one, and `threshold` of them must; signatures that are not a master's, or not
valid, count for nothing.
-/
import Secdogie.Identity.Num
import Secdogie.Identity.Signing

namespace Secdogie.Identity

open Secdogie.Graph

def REVOCATION_TYPE : String := "secdogie/revocation/v1"
/-- A single record names at most this many DIDs. -/
def MAX_REVOKED : Nat := 64

/-- The master DIDs, and how many of them must agree. -/
structure MasterSet where
  dids : List String
  threshold : Nat
  nodup : dids.Nodup
  pos : 1 ≤ threshold
  le : threshold ≤ dids.length

def MasterSet.contains (ms : MasterSet) (did : String) : Bool := decide (did ∈ ms.dids)

structure RevocationRecord (F : Type) where
  record_id : String
  revoked : Finset String
  reason : String
  issued_at : F
  signers : List String

section

variable {F : Type}

/-- `obj.get(k)` of an object. -/
def field (v : Value F) (k : String) : Option (Value F) := v.asObj.bind (fun m => objGet m k)

def textField (v : Value F) (k : String) : Option String := (field v k).bind Value.asStr

/-- `isinstance(v, (int, float)) and not isinstance(v, bool)` -/
def isNumber : Value F → Bool
  | .int _ => true
  | .float _ => true
  | _ => false

/-- A list of strings. -/
def texts : Option (Value F) → Option (List String)
  | some (.arr a) => if a.all (fun v => v.asStr.isSome) then some (a.filterMap Value.asStr) else none
  | _ => none

def revocationBody (revoked : List String) (reason : String) (issued_at : F) : Value F :=
  .obj [("issued_at", .float issued_at), ("reason", .str reason), ("revoked", strArr revoked),
    ("type", .str REVOCATION_TYPE)]

variable [PyFloat F] (C : Crypto) (masters : MasterSet) (exclude : List String)

/-- One entry of `sigs`; `good` are the masters whose signature was found. -/
def countSignature (message : ByteArray) (good : List String) (entry : Value F) : List String :=
  match textField entry "signer", textField entry "sig" with
  | some signer, some sig_b64 =>
      if signer ∈ good ∨ signer ∈ exclude ∨ masters.contains signer = false then good
      else
        match C.b64decode sig_b64, C.publicKey signer with
        | some sig, some pub => if C.verify pub message sig then good ++ [signer] else good
        | _, _ => good
  | _, _ => good

/-- The record, when `obj` is a well-formed revocation that enough masters
signed. -/
def verify_revocation (obj : Value F) : Option (RevocationRecord F) :=
  if textField obj "type" ≠ some REVOCATION_TYPE then none
  else
    match texts (field obj "revoked"), textField obj "reason", field obj "issued_at",
        (field obj "sigs").bind Value.asArr with
    | some revoked, some reason, some at_, some sigs =>
        if ¬ (1 ≤ revoked.length ∧ revoked.length ≤ MAX_REVOKED) ∨ ¬ revoked.Pairwise (· < ·) then none
        else if revoked.any (fun did => (C.publicKey did).isNone) ∨ isNumber at_ = false then none
        else
          match toFloat at_ with
          | none => none
          | some issued_at =>
              let body := revocationBody revoked reason issued_at
              if textField obj "record_id" ≠ some (digest C body) then none
              else
                let good := sigs.foldl (countSignature C masters exclude (canonical body)) []
                if good.length < masters.threshold then none
                else some ⟨digest C body, revoked.toFinset, reason, issued_at, good⟩
    | _, _, _, _ => none

variable {C masters exclude}

/-- A well-formed revocation with enough signatures is its record. -/
theorem verify_revocation_eq {obj at_ : Value F} {revoked : List String} {reason : String}
    {sigs : List (Value F)} {issued_at : F} (htype : textField obj "type" = some REVOCATION_TYPE)
    (hrevoked : texts (field obj "revoked") = some revoked)
    (hreason : textField obj "reason" = some reason) (hat : field obj "issued_at" = some at_)
    (hsigs : (field obj "sigs").bind Value.asArr = some sigs)
    (hlen : 1 ≤ revoked.length ∧ revoked.length ≤ MAX_REVOKED) (hsorted : revoked.Pairwise (· < ·))
    (hkeys : revoked.any (fun did => (C.publicKey did).isNone) = false)
    (hnum : isNumber at_ = true) (hfloat : toFloat at_ = some issued_at)
    (hid : textField obj "record_id" = some (digest C (revocationBody revoked reason issued_at)))
    (hgood : masters.threshold ≤ (sigs.foldl (countSignature C masters exclude
      (canonical (revocationBody revoked reason issued_at))) []).length) :
    verify_revocation C masters exclude obj =
      some ⟨digest C (revocationBody revoked reason issued_at), revoked.toFinset, reason, issued_at,
        sigs.foldl (countSignature C masters exclude
          (canonical (revocationBody revoked reason issued_at))) []⟩ := by
  rw [verify_revocation, if_neg (not_not.mpr htype), hrevoked, hreason, hat, hsigs]
  dsimp only
  rw [if_neg (not_or.mpr ⟨not_not.mpr hlen, not_not.mpr hsorted⟩), if_neg (by simp [hkeys, hnum]), hfloat]
  dsimp only
  rw [if_neg (not_not.mpr hid), if_neg (not_lt.mpr hgood)]

/-- The bodies that are digested on account of these objects. -/
def Bodies (objs : List (Value F)) : Set (Value F) :=
  {v | ∃ obj ∈ objs, ∃ revoked reason issued_at, texts (field obj "revoked") = some revoked ∧
    textField obj "reason" = some reason ∧
    (field obj "issued_at").bind toFloat = some issued_at ∧
    v = revocationBody revoked reason issued_at}

theorem bodies_mono {objs objs' : List (Value F)} (h : ∀ obj ∈ objs, obj ∈ objs') :
    Bodies objs ⊆ Bodies objs' := by
  rintro v ⟨obj, hobj, hrest⟩
  exact ⟨obj, h obj hobj, hrest⟩

/-- What a record is named after. -/
theorem verify_revocation_some {obj : Value F} {r : RevocationRecord F}
    (h : verify_revocation C masters exclude obj = some r) :
    ∃ revoked, r.revoked = revoked.toFinset ∧
      r.record_id = digest C (revocationBody revoked r.reason r.issued_at) ∧
      revocationBody revoked r.reason r.issued_at ∈ Bodies [obj] := by
  unfold verify_revocation at h
  split at h
  · cases h
  split at h
  · next revoked reason at_ sigs hrevoked hreason hat _ =>
    split_ifs at h
    split at h
    · cases h
    · next issued_at hissued =>
      dsimp only at h
      split_ifs at h
      obtain rfl := Option.some.inj h
      exact ⟨revoked, rfl, rfl, obj, by simp, revoked, reason, issued_at, hrevoked, hreason,
        by rw [hat]; exact hissued, rfl⟩
  · cases h

omit [PyFloat F] in
theorem revocationBody_inj {revoked revoked' : List String} {reason reason' : String} {at_ at_' : F}
    (h : revocationBody revoked reason at_ = revocationBody revoked' reason' at_') :
    revoked = revoked' := by
  simp only [revocationBody, strArr, Value.obj.injEq, List.cons.injEq, Prod.mk.injEq,
    Value.arr.injEq, true_and, and_true] at h
  exact List.map_injective_iff.mpr (fun a b h => by simpa using h) h.2.2

/-- Records of one name revoke the same DIDs. -/
theorem revoked_eq_of_id {objs : List (Value F)} (hinj : Set.InjOn (digest C) (Bodies objs))
    {obj obj' : Value F} {r r' : RevocationRecord F} (hobj : obj ∈ objs) (hobj' : obj' ∈ objs)
    (h : verify_revocation C masters exclude obj = some r)
    (h' : verify_revocation C masters exclude obj' = some r') (hid : r.record_id = r'.record_id) :
    r.revoked = r'.revoked := by
  obtain ⟨revoked, hrevoked, hname, hbody⟩ := verify_revocation_some h
  obtain ⟨revoked', hrevoked', hname', hbody'⟩ := verify_revocation_some h'
  have heq := hinj (bodies_mono (by simpa using hobj) hbody)
    (bodies_mono (by simpa using hobj') hbody') (hname.symm.trans (hid.trans hname'))
  rw [hrevoked, hrevoked', revocationBody_inj heq]

end

end Secdogie.Identity
