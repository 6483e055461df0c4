/-
# `Secdogie.Identity.Capability` — grants and bindings from anywhere

"Grants that fail verification (untrusted, tampered, expired, for someone else)
simply contribute nothing."  So they do, unless verifying one raises: the payload of a
grant or of a binding is encoded before anything is known of its signature, and the
ends of its window are made floats, which an integer may be too large for.

`isolated_iff` says for which lists of grants the scopes are those of the good ones,
in whatever order, and for which bindings there is a result.
-/
import Secdogie.Identity.Encoded

namespace Secdogie.Identity.Encoded

open Secdogie.Json

def CAPABILITY_TYPE : Str := .of "secdogie/capability/v1"

def BINDING_TYPE : Str := .of "secdogie/transport-binding/v1"

def GRANTABLE_SCOPES : List Str :=
  ["observe.read", "physical.click", "physical.type", "physical.key", "physical.scroll",
    "physical.drag", "system.open", "process.run", "network.post", "network.send"].map Str.of

structure CapabilityResult where
  ok : Bool
  reason : Option Str := none
  capability_id : Option Str := none
  issuer : Option Str := none
  subject : Option Str := none
  scopes : List Str := []

structure BindingResult where
  ok : Bool
  reason : Option Str := none
  did : Option Str := none
  transport_public_key : Option Str := none
  key_version : ℤ := 0
  capabilities : List Str := []

/-- The numbers of the interpreter, and what they are as integers and as floats; NaN is no
number of JSON. -/
structure Numbers (F : Type) where
  numerals : Numerals
  /-- its value, if it is an `int` -/
  integer : Str → Option ℤ
  /-- `float(v)`; `none` is its `OverflowError` -/
  float : Str → Option F

/-- A member that is a string. -/
def textAt (m : Dict) (k : String) : Option Str :=
  match get m (.of k) with
  | some (.str s) => some s
  | _ => none

/-- The items of a list that has strings only. -/
def strings : List Json → Option (List Str)
  | [] => some []
  | .str s :: items => (strings items).map (s :: ·)
  | _ => none

def le (a b : Str) : Bool := decide (a ≤ b)

local instance lawful_grant : LawfulBEq Str := inferInstance

def _check_scopes (scopes : Option Json) : Except Str (List Str) :=
  match scopes with
  | some (.arr items) =>
      match strings items with
      | none => .error (.of "scopes must be strings")
      | some scopes =>
          if scopes = [] then .error (.of "a capability needs at least one scope")
          else
            let bad := (scopes.filter (fun s => s ∉ GRANTABLE_SCOPES)).mergeSort le
            if bad ≠ [] then
              .error (.of "not grantable: " ++ (bad.intersperse (.of ", ")).flatten)
            else .ok (scopes.dedup.mergeSort le)
  | _ => .error (.of "scopes must be a list")

section

variable {F : Type} [LinearOrder F] (N : Numbers F) (room : ℕ) (K : Keys)

/-- Why the window does not cover the time, if it does not. -/
def window (what : String) (now : F) (m : Dict) : Except Raised (Option Str) :=
  match get m (.of "valid_from"), get m (.of "expires_at") with
  | some (.num vf), some (.num exp) =>
      match N.float vf with
      | none => .error .overflow
      | some vf =>
          if now < vf then .ok (some (.of (what ++ " not yet valid")))
          else
            match N.float exp with
            | none => .error .overflow
            | some exp => .ok (if exp ≤ now then some (.of (what ++ " expired")) else none)
  | _, _ => .ok (some (.of "invalid validity window"))

/-- `verify_capability`, after the signature -/
def checkGrant (subject : Option Str) (now : F) (m : Dict) (signer : Option Str) :
    Except Raised CapabilityResult :=
  if textAt m "issuer" ≠ signer then
    .ok { ok := false, reason := some (.of "issuer does not match signer"), issuer := signer }
  else
    match textAt m "subject" with
    | none => .ok { ok := false, reason := some (.of "invalid subject"), issuer := signer }
    | some subj =>
        if subject.any (fun s => subj ≠ s) then
          .ok { ok := false, reason := some (.of "grant is for a different subject"),
                issuer := signer, subject := some subj }
        else
          match (textAt m "capability_id").filter (fun cid => cid ≠ []) with
          | none =>
              .ok { ok := false, reason := some (.of "invalid capability_id"), issuer := signer,
                    subject := some subj }
          | some cid =>
              match _check_scopes (get m (.of "scopes")) with
              | .error reason =>
                  .ok { ok := false, reason := some reason, capability_id := some cid,
                        issuer := signer, subject := some subj }
              | .ok checked =>
                  match window N "grant" now m with
                  | .error e => .error e
                  | .ok (some reason) =>
                      .ok { ok := false, reason := some reason, capability_id := some cid,
                            issuer := signer, subject := some subj }
                  | .ok none =>
                      .ok { ok := true, capability_id := some cid, issuer := signer,
                            subject := some subj, scopes := checked }

def verify_capability (issuers : Option (Str → Bool)) (subject : Option Str) (now : F) (obj : Json) :
    Except Raised CapabilityResult :=
  match obj with
  | .obj m =>
      if textAt m "type" ≠ some CAPABILITY_TYPE then
        .ok { ok := false, reason := some (.of "wrong or missing type (domain separation)") }
      else if issuers.isNone then
        .ok { ok := false, reason := some (.of "no trusted issuers configured") }
      else
        match verify_payload N.numerals room K issuers (.obj m) with
        | .error e => .error e
        | .ok (false, signer) =>
            .ok { ok := false, issuer := signer,
                  reason := some (.of (if signer.any (fun s => s ≠ []) then "issuer not trusted"
                    else "invalid or missing signature")) }
        | .ok (true, signer) => checkGrant N subject now m signer
  | _ => .ok { ok := false, reason := some (.of "not an object") }

/-- One turn of the loop of `effective_scopes`. -/
def addGrant (issuers : Option (Str → Bool)) (subject : Str) (now : F) (out : Finset Str)
    (g : Json) : Except Raised (Finset Str) := do
  let res ← verify_capability N room K issuers (some subject) now g
  pure (if res.ok then out ∪ res.scopes.toFinset else out)

def effective_scopes (issuers : Option (Str → Bool)) (subject : Str) (now : F)
    (grants : List Json) : Except Raised (Finset Str) :=
  grants.foldlM (addGrant N room K issuers subject now) ∅

/-- `_x25519_from_b64`, whose exceptions are caught -/
def _x25519_from_b64 (pk_b64 : Str) : Option (List UInt8) :=
  (K.b64decode pk_b64).filter (fun raw => raw.length = 32)

/-- A key version, if it is an `int` and not negative. -/
def keyVersion (kv : Option Json) : Option ℤ :=
  match kv with
  | some (.num t) => (N.integer t).filter (fun n => 0 ≤ n)
  | _ => none

/-- `capabilities`, and none if there is no such member. -/
def capabilitiesOf (caps : Option Json) : Option (List Str) :=
  match caps with
  | none => some []
  | some (.arr items) => strings items
  | _ => none

/-- `verify_binding`, after the signature -/
def checkBinding (now : F) (m : Dict) (signer : Option Str) : Except Raised BindingResult :=
  let refused (reason : String) : Except Raised BindingResult :=
    .ok { ok := false, reason := some (.of reason), did := signer }
  if textAt m "did" ≠ signer then refused "did does not match signer"
  else
    match (textAt m "transport_public_key").filter (fun tpk => (_x25519_from_b64 K tpk).isSome) with
    | none => refused "invalid transport_public_key"
    | some tpk =>
        match keyVersion N (get m (.of "key_version")) with
        | none => refused "invalid key_version"
        | some kv =>
            match capabilitiesOf (get m (.of "capabilities")) with
            | none => refused "invalid capabilities"
            | some caps =>
                match window N "binding" now m with
                | .error e => .error e
                | .ok (some reason) => .ok { ok := false, reason := some reason, did := signer }
                | .ok none =>
                    .ok { ok := true, did := signer, transport_public_key := some tpk,
                          key_version := kv, capabilities := caps }

def verify_binding (allowlist : Option (Str → Bool)) (now : F) (obj : Json) :
    Except Raised BindingResult :=
  match obj with
  | .obj m =>
      if textAt m "type" ≠ some BINDING_TYPE then
        .ok { ok := false, reason := some (.of "wrong or missing type (domain separation)") }
      else
        match verify_payload N.numerals room K allowlist (.obj m) with
        | .error e => .error e
        | .ok (false, signer) =>
            .ok { ok := false, did := signer,
                  reason := some (.of (if signer.any (fun s => s ≠ []) then "signer not authorized"
                    else "invalid or missing signature")) }
        | .ok (true, signer) => checkBinding N K now m signer
  | _ => .ok { ok := false, reason := some (.of "not an object") }

/-- The DID of a session, whose handshake authenticated this key. -/
def session_did (allowlist : Option (Str → Bool)) (now : F) (binding : Json)
    (authenticated_transport_pk_b64 : Str) : Except Raised (Option Str) :=
  match verify_binding N room K allowlist now binding with
  | .error e => .error e
  | .ok res =>
      if ¬ res.ok then .ok none
      else
        match res.transport_public_key.bind (_x25519_from_b64 K),
          _x25519_from_b64 K authenticated_transport_pk_b64 with
        | some want, some got => .ok (if want = got then res.did else none)
        | _, _ => .ok none

end

/-! ## Windows -/

section

variable {F : Type} [LinearOrder F] {N : Numbers F} {room : ℕ} {K : Keys}

/-- The ends of a window, as they are written. -/
def Ends (m : Dict) (v w : Str) : Prop :=
  get m (.of "valid_from") = some (.num v) ∧ get m (.of "expires_at") = some (.num w)

/-- From the one time, and before the other. -/
def Covers (N : Numbers F) (now : F) (v w : Str) : Prop :=
  ∃ vf exp, N.float v = some vf ∧ N.float w = some exp ∧ vf ≤ now ∧ now < exp

/-- An end that is looked at is too large for a float. -/
def Overflows (N : Numbers F) (now : F) (v w : Str) : Prop :=
  N.float v = none ∨ ∃ vf, N.float v = some vf ∧ vf ≤ now ∧ N.float w = none

theorem Ends.unique {m : Dict} {v w v' w' : Str} (h : Ends m v w) (h' : Ends m v' w') :
    v' = v ∧ w' = w := by
  have hv := h.1.symm.trans h'.1
  have hw := h.2.symm.trans h'.2
  rw [Option.some.injEq, Json.num.injEq] at hv hw
  exact ⟨hv.symm, hw.symm⟩

theorem window_cases (what : String) (now : F) (m : Dict) :
    (∃ v w, Ends m v w ∧ Overflows N now v w ∧ window N what now m = .error .overflow) ∨
      (∃ v w, Ends m v w ∧ ¬ Overflows N now v w ∧ Covers N now v w ∧
        window N what now m = .ok none) ∨
      ∃ reason, window N what now m = .ok (some reason) ∧
        ∀ v w, Ends m v w → ¬ Overflows N now v w ∧ ¬ Covers N now v w := by
  by_cases hends : ∃ v w, Ends m v w
  · obtain ⟨v, w, hends⟩ := hends
    have hsame : ¬ Overflows N now v w ∧ ¬ Covers N now v w →
        ∀ v' w', Ends m v' w' → ¬ Overflows N now v' w' ∧ ¬ Covers N now v' w' := by
      intro hP v' w' h'
      obtain ⟨rfl, rfl⟩ := hends.unique h'
      exact hP
    cases hv : N.float v with
    | none =>
        refine .inl ⟨v, w, hends, .inl hv, ?_⟩
        unfold window
        rw [hends.1, hends.2]
        dsimp only
        rw [hv]
    | some vf =>
        by_cases hearly : now < vf
        · refine .inr (.inr ⟨.of (what ++ " not yet valid"), ?_, hsame ⟨?_, ?_⟩⟩)
          · unfold window
            rw [hends.1, hends.2]
            dsimp only
            rw [hv]
            exact if_pos hearly
          · rintro (hnone | ⟨vf', hvf', hle, _⟩)
            · rw [hv] at hnone
              exact nomatch hnone
            · rw [hv, Option.some.injEq] at hvf'
              exact absurd hearly (not_lt.mpr (hvf' ▸ hle))
          · rintro ⟨vf', exp, hvf', _, hle, _⟩
            rw [hv, Option.some.injEq] at hvf'
            exact absurd hearly (not_lt.mpr (hvf' ▸ hle))
        · have heq : window N what now m = match N.float w with
              | none => .error .overflow
              | some exp => .ok (if exp ≤ now then some (.of (what ++ " expired")) else none) := by
            unfold window
            rw [hends.1, hends.2]
            dsimp only
            rw [hv]
            exact if_neg hearly
          cases hw : N.float w with
          | none =>
              rw [hw] at heq
              exact .inl ⟨v, w, hends, .inr ⟨vf, hv, not_lt.mp hearly, hw⟩, heq⟩
          | some exp =>
              rw [hw] at heq
              have hno : ¬ Overflows N now v w := by
                rintro (hnone | ⟨_, _, _, hnone⟩)
                · rw [hv] at hnone
                  exact nomatch hnone
                · rw [hw] at hnone
                  exact nomatch hnone
              by_cases hlate : exp ≤ now
              · dsimp only at heq
                rw [if_pos hlate] at heq
                refine .inr (.inr ⟨_, heq, hsame ⟨hno, ?_⟩⟩)
                rintro ⟨_, exp', _, hexp', _, hlt⟩
                rw [hw, Option.some.injEq] at hexp'
                exact absurd hlate (not_le.mpr (hexp' ▸ hlt))
              · dsimp only at heq
                rw [if_neg hlate] at heq
                exact .inr (.inl ⟨v, w, hends, hno,
                  ⟨vf, exp, hv, hw, not_lt.mp hearly, not_le.mp hlate⟩, heq⟩)
  · refine .inr (.inr ⟨.of "invalid validity window", ?_, fun v w h => absurd ⟨v, w, h⟩ hends⟩)
    unfold window
    split
    next v w hv hw => exact absurd ⟨v, w, hv, hw⟩ hends
    next => rfl

/-! ## Grants -/

/-- What a grant says, whatever its window: the issuer is its signer, the subject this one, and
its scopes can be granted. -/
structure Stated (m : Dict) (signer subject : Str) (scopes : List Str) : Prop where
  issuer : textAt m "issuer" = some signer
  subject : textAt m "subject" = some subject
  id : ∃ cid, cid ≠ [] ∧ textAt m "capability_id" = some cid
  some_scope : scopes ≠ []
  grantable : ∀ s ∈ scopes, s ∈ GRANTABLE_SCOPES
  listed : ∃ items, get m (.of "scopes") = some (.arr items) ∧ strings items = some scopes

theorem _check_scopes_ok {v : Option Json} {checked : List Str}
    (h : _check_scopes v = .ok checked) :
    ∃ items scopes, v = some (.arr items) ∧ strings items = some scopes ∧ scopes ≠ [] ∧
      (∀ s ∈ scopes, s ∈ GRANTABLE_SCOPES) ∧ checked = scopes.dedup.mergeSort le := by
  unfold _check_scopes at h
  split at h
  next items =>
    split at h
    next => exact nomatch h
    next scopes hscopes =>
      by_cases hnone : scopes = []
      · rw [if_pos hnone] at h
        exact nomatch h
      rw [if_neg hnone] at h
      dsimp only at h
      by_cases hbad : (scopes.filter (fun s => s ∉ GRANTABLE_SCOPES)).mergeSort le ≠ []
      · rw [if_pos hbad] at h
        exact nomatch h
      rw [if_neg hbad, Except.ok.injEq] at h
      refine ⟨items, scopes, rfl, hscopes, hnone, fun s hs => ?_, h.symm⟩
      by_contra hnot
      have hmem : s ∈ (scopes.filter (fun s => s ∉ GRANTABLE_SCOPES)).mergeSort le := by
        rw [List.mem_mergeSort, List.mem_filter]
        exact ⟨hs, decide_eq_true hnot⟩
      rw [not_not.mp hbad] at hmem
      exact absurd hmem List.not_mem_nil
  next => exact nomatch h

theorem _check_scopes_of {items : List Json} {scopes : List Str}
    (hitems : strings items = some scopes) (hsome : scopes ≠ [])
    (hgrantable : ∀ s ∈ scopes, s ∈ GRANTABLE_SCOPES) :
    _check_scopes (some (.arr items)) = .ok (scopes.dedup.mergeSort le) := by
  have hbad : (scopes.filter (fun s => s ∉ GRANTABLE_SCOPES)).mergeSort le = [] := by
    have hnone : scopes.filter (fun s => s ∉ GRANTABLE_SCOPES) = [] :=
      List.filter_eq_nil_iff.mpr (fun s hs => by simpa using hgrantable s hs)
    rw [hnone]
    exact List.mergeSort_nil
  unfold _check_scopes
  dsimp only
  rw [hitems]
  dsimp only
  rw [if_neg hsome, if_neg (not_not.mpr hbad)]

theorem filter_cid {m : Dict} : ∀ cid, (textAt m "capability_id").filter (fun cid => cid ≠ []) =
    some cid ↔ textAt m "capability_id" = some cid ∧ cid ≠ [] := by
  intro cid
  rw [Option.filter_eq_some_iff, decide_eq_true_eq]

/-- What is made of the members of a grant that is signed. -/
theorem checkGrant_cases (subject : Str) (now : F) (m : Dict) (signer : Str) :
    (∃ scopes v w, Stated m signer subject scopes ∧ Ends m v w ∧ Overflows N now v w ∧
        checkGrant N (some subject) now m (some signer) = .error .overflow) ∨
      (∃ scopes v w res, Stated m signer subject scopes ∧ Ends m v w ∧ ¬ Overflows N now v w ∧
        Covers N now v w ∧ checkGrant N (some subject) now m (some signer) = .ok res ∧
          res.ok = true ∧ ∀ x, x ∈ res.scopes ↔ x ∈ scopes) ∨
      ∃ res, checkGrant N (some subject) now m (some signer) = .ok res ∧ res.ok = false ∧
        ∀ scopes v w, Stated m signer subject scopes → Ends m v w →
          ¬ Overflows N now v w ∧ ¬ Covers N now v w := by
  unfold checkGrant
  by_cases hissuer : textAt m "issuer" ≠ some signer
  · rw [if_pos hissuer]
    exact .inr (.inr ⟨_, rfl, rfl, fun _ _ _ h => absurd h.issuer hissuer⟩)
  rw [if_neg hissuer]
  have hissuer := not_not.mp hissuer
  cases hsubj : textAt m "subject" with
  | none =>
      refine .inr (.inr ⟨_, rfl, rfl, fun _ _ _ h => ?_⟩)
      have hno := h.subject
      rw [hsubj] at hno
      exact nomatch hno
  | some subj =>
      dsimp only
      by_cases hother : (some subject).any (fun s => subj ≠ s) = true
      · rw [if_pos hother]
        refine .inr (.inr ⟨_, rfl, rfl, fun _ _ _ h => ?_⟩)
        have hsame := h.subject
        rw [hsubj, Option.some.injEq] at hsame
        exact absurd hsame (of_decide_eq_true hother)
      rw [if_neg hother]
      have hsame : subj = subject := by
        by_contra hne
        exact hother (decide_eq_true hne)
      subst hsame
      cases hcid : (textAt m "capability_id").filter (fun cid => cid ≠ []) with
      | none =>
          refine .inr (.inr ⟨_, rfl, rfl, fun _ _ _ h => ?_⟩)
          obtain ⟨cid, hne, htext⟩ := h.id
          rw [(filter_cid cid).mpr ⟨htext, hne⟩] at hcid
          exact nomatch hcid
      | some cid =>
          obtain ⟨htext, hne⟩ := (filter_cid cid).mp hcid
          dsimp only
          cases hchecked : _check_scopes (get m (.of "scopes")) with
          | error reason =>
              refine .inr (.inr ⟨_, rfl, rfl, fun scopes _ _ h => ?_⟩)
              obtain ⟨items, hget, hitems⟩ := h.listed
              rw [hget, _check_scopes_of hitems h.some_scope h.grantable] at hchecked
              exact nomatch hchecked
          | ok checked =>
              obtain ⟨items, scopes, hget, hitems, hsome, hgrantable, rfl⟩ :=
                _check_scopes_ok hchecked
              have hstated : Stated m signer subj scopes :=
                ⟨hissuer, hsubj, ⟨cid, hne, htext⟩, hsome, hgrantable, ⟨items, hget, hitems⟩⟩
              dsimp only
              rcases window_cases (N := N) "grant" now m with
                ⟨v, w, hends, hover, hwindow⟩ | ⟨v, w, hends, hover, hcovers, hwindow⟩ |
                ⟨reason, hwindow, hno⟩
              · rw [hwindow]
                exact .inl ⟨scopes, v, w, hstated, hends, hover, rfl⟩
              · rw [hwindow]
                refine .inr (.inl ⟨scopes, v, w, _, hstated, hends, hover, hcovers, rfl, rfl,
                  fun x => ?_⟩)
                rw [List.mem_mergeSort, List.mem_dedup]
              · rw [hwindow]
                exact .inr (.inr ⟨_, rfl, rfl, fun _ v w _ hends => hno v w hends⟩)

theorem Stated.unique {m : Dict} {signer subject : Str} {scopes scopes' : List Str}
    (h : Stated m signer subject scopes) (h' : Stated m signer subject scopes') :
    scopes' = scopes := by
  obtain ⟨items, hget, hitems⟩ := h.listed
  obtain ⟨items', hget', hitems'⟩ := h'.listed
  rw [hget, Option.some.injEq, Json.arr.injEq] at hget'
  rw [← hget', hitems, Option.some.injEq] at hitems'
  exact hitems'.symm

variable (N room K)

/-- A capability object that is signed by a trusted issuer named as issuer, for this subject, with
only grantable scopes, and covering the time. -/
def Grants (issuers : Option (Str → Bool)) (subject : Str) (now : F) (g : Json)
    (scopes : List Str) : Prop :=
  ∃ m, g = .obj m ∧ textAt m "type" = some CAPABILITY_TYPE ∧ issuers.isSome = true ∧
    ∃ signer v w, Signed N.numerals room K issuers m signer ∧ Stated m signer subject scopes ∧
      Ends m v w ∧ Covers N now v w

/-- A grant that spoils the others: it has a well-formed envelope around a payload that cannot be
encoded; or all in it is as it should be, but an end of its window is an integer too large. -/
def Spoils (issuers : Option (Str → Bool)) (subject : Str) (now : F) (g : Json) : Prop :=
  ∃ m, g = .obj m ∧ textAt m "type" = some CAPABILITY_TYPE ∧ issuers.isSome = true ∧
    ((envelope K m).isSome = true ∧ ¬ Encodable N.numerals room (payloadOf m) ∨
      ∃ signer scopes v w, Signed N.numerals room K issuers m signer ∧
        Stated m signer subject scopes ∧ Ends m v w ∧ Overflows N now v w)

variable {N room K}

theorem verify_capability_cases (issuers : Option (Str → Bool)) (subject : Str) (now : F)
    (g : Json) :
    (Spoils N room K issuers subject now g ∧
        ∃ e, verify_capability N room K issuers (some subject) now g = .error e) ∨
      ¬ Spoils N room K issuers subject now g ∧
        ∃ res, verify_capability N room K issuers (some subject) now g = .ok res ∧
          ∀ x, (res.ok = true ∧ x ∈ res.scopes) ↔
            ∃ scopes, Grants N room K issuers subject now g scopes ∧ x ∈ scopes := by
  have hrefused : ∀ res : CapabilityResult, ¬ Spoils N room K issuers subject now g →
      verify_capability N room K issuers (some subject) now g = .ok res → res.ok = false →
      (∀ scopes, ¬ Grants N room K issuers subject now g scopes) →
      ¬ Spoils N room K issuers subject now g ∧
        ∃ res, verify_capability N room K issuers (some subject) now g = .ok res ∧
          ∀ x, (res.ok = true ∧ x ∈ res.scopes) ↔
            ∃ scopes, Grants N room K issuers subject now g scopes ∧ x ∈ scopes := by
    intro res hspoils heq hok hnone
    refine ⟨hspoils, res, heq, fun x => iff_of_false (fun h => ?_) (fun h => ?_)⟩
    · rw [hok] at h
      exact Bool.false_ne_true h.1
    · obtain ⟨scopes, hgrants, _⟩ := h
      exact hnone scopes hgrants
  by_cases hobj : ∃ m, g = .obj m
  · obtain ⟨m, rfl⟩ := hobj
    by_cases htype : textAt m "type" ≠ some CAPABILITY_TYPE
    · refine .inr (hrefused _ ?_ (if_pos htype) rfl ?_)
      · rintro ⟨m', heq, htype', _⟩
        cases heq
        exact htype htype'
      · rintro scopes ⟨m', heq, htype', _⟩
        cases heq
        exact htype htype'
    by_cases hissuers : issuers.isNone = true
    · have hnone : issuers.isSome = true → False := by
        rw [Option.isNone_iff_eq_none.mp hissuers]
        exact fun h => nomatch h
      refine .inr (hrefused _ ?_ ((if_neg htype).trans (if_pos hissuers)) rfl ?_)
      · rintro ⟨m', _, _, hsome, _⟩
        exact hnone hsome
      · rintro scopes ⟨m', _, _, hsome, _⟩
        exact hnone hsome
    have htype := not_not.mp htype
    have hsome : issuers.isSome = true := by
      cases issuers with
      | none => exact absurd rfl hissuers
      | some contains => rfl
    have heq : verify_capability N room K issuers (some subject) now (.obj m) =
        match verify_payload N.numerals room K issuers (.obj m) with
        | .error e => .error e
        | .ok (false, signer) =>
            .ok { ok := false, issuer := signer,
                  reason := some (.of (if signer.any (fun s => s ≠ []) then "issuer not trusted"
                    else "invalid or missing signature")) }
        | .ok (true, signer) => checkGrant N (some subject) now m signer := by
      unfold verify_capability
      dsimp only
      rw [if_neg (not_not.mpr htype), if_neg hissuers]
    rcases @verify_payload_cases N.numerals room K issuers m with
      ⟨henvelope, hencodable, e, hpayload⟩ | ⟨hencodable, hsigned⟩
    · rw [hpayload] at heq
      exact .inl ⟨⟨m, rfl, htype, hsome, .inl ⟨henvelope, hencodable⟩⟩, e, heq⟩
    rcases hsigned with ⟨signer, hsigned, hpayload⟩ | ⟨signer, hpayload, hnot⟩
    · rw [hpayload] at heq
      rcases checkGrant_cases (N := N) subject now m signer with
        ⟨scopes, v, w, hstated, hends, hover, hcheck⟩ |
        ⟨scopes, v, w, res, hstated, hends, hover, hcovers, hcheck, hok, hscopes⟩ |
        ⟨res, hcheck, hok, hno⟩
      · exact .inl ⟨⟨m, rfl, htype, hsome, .inr ⟨signer, scopes, v, w, hsigned, hstated, hends,
          hover⟩⟩, .overflow, heq.trans hcheck⟩
      · refine .inr ⟨?_, res, heq.trans hcheck, fun x => ?_⟩
        · rintro ⟨m', hm', _, _, ⟨henvelope, hbad⟩ |
            ⟨signer', scopes', v', w', _, _, hends', hover'⟩⟩
          · cases hm'
            exact hbad (hencodable henvelope)
          · cases hm'
            obtain ⟨rfl, rfl⟩ := hends.unique hends'
            exact hover hover'
        · constructor
          · rintro ⟨_, hx⟩
            exact ⟨scopes, ⟨m, rfl, htype, hsome, signer, v, w, hsigned, hstated, hends, hcovers⟩,
              (hscopes x).mp hx⟩
          · rintro ⟨scopes', ⟨m', hm', _, _, signer', v', w', hsigned', hstated', _, _⟩, hx⟩
            cases hm'
            cases hsigned.unique hsigned'
            cases hstated.unique hstated'
            exact ⟨hok, (hscopes x).mpr hx⟩
      · refine .inr (hrefused res ?_ (heq.trans hcheck) hok ?_)
        · rintro ⟨m', hm', _, _, ⟨henvelope, hbad⟩ |
            ⟨signer', scopes', v', w', hsigned', hstated', hends', hover'⟩⟩
          · cases hm'
            exact hbad (hencodable henvelope)
          · cases hm'
            cases hsigned.unique hsigned'
            exact (hno scopes' v' w' hstated' hends').1 hover'
        · rintro scopes' ⟨m', hm', _, _, signer', v', w', hsigned', hstated', hends', hcovers'⟩
          cases hm'
          cases hsigned.unique hsigned'
          exact (hno scopes' v' w' hstated' hends').2 hcovers'
    · rw [hpayload] at heq
      refine .inr (hrefused _ ?_ heq rfl ?_)
      · rintro ⟨m', hm', _, _, ⟨henvelope, hbad⟩ | ⟨signer', scopes', v', w', hsigned', _⟩⟩
        · cases hm'
          exact hbad (hencodable henvelope)
        · cases hm'
          exact hnot signer' hsigned'
      · rintro scopes' ⟨m', hm', _, _, signer', v', w', hsigned', _⟩
        cases hm'
        exact hnot signer' hsigned'
  · have heq : verify_capability N room K issuers (some subject) now g =
        .ok { ok := false, reason := some (.of "not an object") } := by
      cases g with
      | obj m => exact absurd ⟨m, rfl⟩ hobj
      | null => rfl
      | bool b => rfl
      | num t => rfl
      | str s => rfl
      | arr items => rfl
    refine .inr (hrefused _ ?_ heq rfl ?_)
    · rintro ⟨m, hm, _⟩
      exact hobj ⟨m, hm⟩
    · rintro scopes ⟨m, hm, _⟩
      exact hobj ⟨m, hm⟩

/-! ## The scopes that are held -/

theorem addGrant_error {issuers : Option (Str → Bool)} {subject : Str} {now : F} {g : Json}
    {e : Raised} (h : verify_capability N room K issuers (some subject) now g = .error e)
    (out : Finset Str) : addGrant N room K issuers subject now out g = .error e := by
  unfold addGrant
  rw [h]
  rfl

theorem addGrant_ok {issuers : Option (Str → Bool)} {subject : Str} {now : F} {g : Json}
    {res : CapabilityResult}
    (h : verify_capability N room K issuers (some subject) now g = .ok res) (out : Finset Str) :
    addGrant N room K issuers subject now out g =
      .ok (if res.ok then out ∪ res.scopes.toFinset else out) := by
  unfold addGrant
  rw [h]
  rfl

theorem effective_scopes_from (issuers : Option (Str → Bool)) (subject : Str) (now : F) :
    ∀ (grants : List Json) (out : Finset Str),
      (∃ S, grants.foldlM (addGrant N room K issuers subject now) out = .ok S ∧
        (∀ g ∈ grants, ¬ Spoils N room K issuers subject now g) ∧
        ∀ x, x ∈ S ↔ x ∈ out ∨
          ∃ g ∈ grants, ∃ scopes, Grants N room K issuers subject now g scopes ∧ x ∈ scopes) ∨
      (∃ e, grants.foldlM (addGrant N room K issuers subject now) out = .error e) ∧
        ∃ g ∈ grants, Spoils N room K issuers subject now g := by
  intro grants
  induction grants with
  | nil =>
      intro out
      refine .inl ⟨out, rfl, fun g hg => absurd hg List.not_mem_nil, fun x => ?_⟩
      exact ⟨.inl, fun h => h.elim id (fun ⟨g, hg, _⟩ => absurd hg List.not_mem_nil)⟩
  | cons g grants ih =>
      intro out
      rw [List.foldlM_cons]
      rcases verify_capability_cases (N := N) (K := K) issuers subject now g with
        ⟨hspoils, e, heq⟩ | ⟨hspoils, res, heq, hres⟩
      · rw [addGrant_error heq]
        exact .inr ⟨⟨e, rfl⟩, g, List.mem_cons_self, hspoils⟩
      · rw [addGrant_ok heq]
        have hout : ∀ x, x ∈ (if res.ok then out ∪ res.scopes.toFinset else out) ↔
            x ∈ out ∨ ∃ scopes, Grants N room K issuers subject now g scopes ∧ x ∈ scopes := by
          intro x
          rw [← hres x]
          cases res.ok with
          | true => simp
          | false => simp
        rcases ih (if res.ok then out ∪ res.scopes.toFinset else out) with
          ⟨S, hS, hgood, hmem⟩ | ⟨hraised, g', hg', hspoils'⟩
        · refine .inl ⟨S, hS, List.forall_mem_cons.mpr ⟨hspoils, hgood⟩, fun x => ?_⟩
          rw [hmem x, hout x, or_assoc, List.exists_mem_cons_iff]
        · exact .inr ⟨hraised, g', List.mem_cons_of_mem _ hg', hspoils'⟩

/-- The scopes are those of the grants that are good, unless a grant spoils them. -/
theorem effective_scopes_cases (issuers : Option (Str → Bool)) (subject : Str) (now : F)
    (grants : List Json) :
    (∃ S, effective_scopes N room K issuers subject now grants = .ok S ∧
        (∀ g ∈ grants, ¬ Spoils N room K issuers subject now g) ∧
        ∀ x, x ∈ S ↔
          ∃ g ∈ grants, ∃ scopes, Grants N room K issuers subject now g scopes ∧ x ∈ scopes) ∨
      (∃ e, effective_scopes N room K issuers subject now grants = .error e) ∧
        ∃ g ∈ grants, Spoils N room K issuers subject now g := by
  rcases effective_scopes_from (N := N) (K := K) issuers subject now grants ∅ with
    ⟨S, hS, hgood, hmem⟩ | hraised
  · refine .inl ⟨S, hS, hgood, fun x => ?_⟩
    rw [hmem x]
    exact or_iff_right (Finset.notMem_empty x)
  · exact .inr hraised

/-! ## Bindings -/

/-- What a binding says, whatever its window. -/
structure Bound (N : Numbers F) (K : Keys) (m : Dict) (signer : Str) : Prop where
  did : textAt m "did" = some signer
  transport_public_key : ∃ tpk, textAt m "transport_public_key" = some tpk ∧
    (_x25519_from_b64 K tpk).isSome = true
  key_version : (keyVersion N (get m (.of "key_version"))).isSome = true
  capabilities : (capabilitiesOf (get m (.of "capabilities"))).isSome = true

/-- A binding for which there is no result, for one of the two reasons. -/
def SpoilsBinding (N : Numbers F) (room : ℕ) (K : Keys) (allowlist : Option (Str → Bool)) (now : F)
    (binding : Json) : Prop :=
  ∃ m, binding = .obj m ∧ textAt m "type" = some BINDING_TYPE ∧
    ((envelope K m).isSome = true ∧ ¬ Encodable N.numerals room (payloadOf m) ∨
      ∃ signer v w, Signed N.numerals room K allowlist m signer ∧ Bound N K m signer ∧ Ends m v w ∧
        Overflows N now v w)

theorem checkBinding_raises_iff (now : F) (m : Dict) (signer : Str) :
    (∃ res, checkBinding N K now m (some signer) = .ok res) ↔
      ¬ ∃ v w, Bound N K m signer ∧ Ends m v w ∧ Overflows N now v w := by
  unfold checkBinding
  by_cases hdid : textAt m "did" ≠ some signer
  · rw [if_pos hdid]
    exact iff_of_true ⟨_, rfl⟩ (fun ⟨_, _, h, _⟩ => hdid h.did)
  rw [if_neg hdid]
  cases htpk : (textAt m "transport_public_key").filter
      (fun tpk => (_x25519_from_b64 K tpk).isSome) with
  | none =>
      refine iff_of_true ⟨_, rfl⟩ (fun ⟨_, _, h, _⟩ => ?_)
      obtain ⟨tpk, htext, hkey⟩ := h.transport_public_key
      rw [Option.filter_eq_some_iff.mpr ⟨htext, hkey⟩] at htpk
      exact nomatch htpk
  | some tpk =>
      obtain ⟨htext, hkey⟩ := Option.filter_eq_some_iff.mp htpk
      dsimp only
      cases hkv : keyVersion N (get m (.of "key_version")) with
      | none =>
          refine iff_of_true ⟨_, rfl⟩ (fun ⟨_, _, h, _⟩ => ?_)
          have hsome := h.key_version
          rw [hkv] at hsome
          exact nomatch hsome
      | some kv =>
          dsimp only
          cases hcaps : capabilitiesOf (get m (.of "capabilities")) with
          | none =>
              refine iff_of_true ⟨_, rfl⟩ (fun ⟨_, _, h, _⟩ => ?_)
              have hsome := h.capabilities
              rw [hcaps] at hsome
              exact nomatch hsome
          | some caps =>
              have hbound : Bound N K m signer := ⟨not_not.mp hdid, ⟨tpk, htext, hkey⟩,
                by rw [hkv]; rfl, by rw [hcaps]; rfl⟩
              dsimp only
              rcases window_cases (N := N) "binding" now m with
                ⟨v, w, hends, hover, hwindow⟩ | ⟨v, w, hends, hover, _, hwindow⟩ |
                ⟨reason, hwindow, hno⟩
              · rw [hwindow]
                exact iff_of_false (fun ⟨_, hok⟩ => nomatch hok)
                  (not_not.mpr ⟨v, w, hbound, hends, hover⟩)
              · rw [hwindow]
                refine iff_of_true ⟨_, rfl⟩ (fun ⟨v', w', _, hends', hover'⟩ => ?_)
                obtain ⟨rfl, rfl⟩ := hends.unique hends'
                exact hover hover'
              · rw [hwindow]
                exact iff_of_true ⟨_, rfl⟩
                  (fun ⟨v', w', _, hends', hover'⟩ => (hno v' w' hends').1 hover')

theorem verify_binding_ok_iff (allowlist : Option (Str → Bool)) (now : F) (binding : Json) :
    (∃ res, verify_binding N room K allowlist now binding = .ok res) ↔
      ¬ SpoilsBinding N room K allowlist now binding := by
  by_cases hobj : ∃ m, binding = .obj m
  · obtain ⟨m, rfl⟩ := hobj
    by_cases htype : textAt m "type" ≠ some BINDING_TYPE
    · refine iff_of_true ⟨_, if_pos htype⟩ ?_
      rintro ⟨m', hm', htype', _⟩
      cases hm'
      exact htype htype'
    have hspoils : SpoilsBinding N room K allowlist now (.obj m) ↔
        ((envelope K m).isSome = true ∧ ¬ Encodable N.numerals room (payloadOf m)) ∨
          ∃ signer v w, Signed N.numerals room K allowlist m signer ∧ Bound N K m signer ∧
            Ends m v w ∧ Overflows N now v w := by
      constructor
      · rintro ⟨m', hm', _, h⟩
        cases hm'
        exact h
      · exact fun h => ⟨m, rfl, not_not.mp htype, h⟩
    rw [hspoils]
    unfold verify_binding
    dsimp only
    rw [if_neg htype]
    rcases @verify_payload_cases N.numerals room K allowlist m with
      ⟨henvelope, hencodable, e, hpayload⟩ | ⟨hencodable, hsigned⟩
    · rw [hpayload]
      exact iff_of_false (fun ⟨_, hok⟩ => nomatch hok) (not_not.mpr (.inl ⟨henvelope, hencodable⟩))
    have hfirst : ¬ ((envelope K m).isSome = true ∧ ¬ Encodable N.numerals room (payloadOf m)) :=
      fun h => h.2 (hencodable h.1)
    rcases hsigned with ⟨signer, hsigned, hpayload⟩ | ⟨signer, hpayload, hnot⟩
    · rw [hpayload]
      dsimp only
      rw [checkBinding_raises_iff, not_or]
      constructor
      · rintro hno
        refine ⟨hfirst, ?_⟩
        rintro ⟨signer', v, w, hsigned', hbound, hends, hover⟩
        cases hsigned.unique hsigned'
        exact hno ⟨v, w, hbound, hends, hover⟩
      · rintro ⟨_, hno⟩ ⟨v, w, hbound, hends, hover⟩
        exact hno ⟨signer, v, w, hsigned, hbound, hends, hover⟩
    · rw [hpayload]
      refine iff_of_true ⟨_, rfl⟩ (not_or.mpr ⟨hfirst, ?_⟩)
      rintro ⟨signer', v, w, hsigned', _⟩
      exact hnot signer' hsigned'
  · refine iff_of_true ?_ (fun ⟨m, hm, _⟩ => hobj ⟨m, hm⟩)
    cases binding with
    | obj m => exact absurd ⟨m, rfl⟩ hobj
    | null => exact ⟨_, rfl⟩
    | bool b => exact ⟨_, rfl⟩
    | num t => exact ⟨_, rfl⟩
    | str s => exact ⟨_, rfl⟩
    | arr items => exact ⟨_, rfl⟩

theorem session_did_ok {allowlist : Option (Str → Bool)} {now : F} {binding : Json}
    {res : BindingResult} (h : verify_binding N room K allowlist now binding = .ok res) (pk : Str) :
    ∃ did, session_did N room K allowlist now binding pk = .ok did := by
  unfold session_did
  rw [h]
  dsimp only
  split
  · exact ⟨_, rfl⟩
  · split
    · exact ⟨_, rfl⟩
    · exact ⟨_, rfl⟩

/-! ## Isolation -/

variable (N room K)

/-- No grant spoils the others, and every binding has a result: the scopes held are those of the
good grants, in whatever order they come, and fewer grants hold no more. -/
structure Isolated (issuers allowlist : Option (Str → Bool)) (subject : Str) (now : F)
    (grants : List Json) (binding : Json) (pk : Str) : Prop where
  union : ∃ S, effective_scopes N room K issuers subject now grants = .ok S ∧ ∀ x, x ∈ S ↔
    ∃ g ∈ grants, ∃ scopes, Grants N room K issuers subject now g scopes ∧ x ∈ scopes
  order : ∀ grants' : List Json, grants'.Perm grants →
    effective_scopes N room K issuers subject now grants' =
      effective_scopes N room K issuers subject now grants
  monotone : ∀ grants' : List Json, grants' ⊆ grants →
    ∃ S' S, effective_scopes N room K issuers subject now grants' = .ok S' ∧
      effective_scopes N room K issuers subject now grants = .ok S ∧ S' ⊆ S
  verified : ∃ res, verify_binding N room K allowlist now binding = .ok res
  session : ∃ did, session_did N room K allowlist now binding pk = .ok did

end

/-! ## A grant with a lone surrogate -/

/-- Numbers printed as they are read, and none of them a float. -/
def noFloats : Numbers ℤ where
  numerals := Numerals.verbatim
  integer _ := none
  float _ := none

/-- Every text is a key and a signature, and no signature is valid. -/
def noneValid : Keys where
  from_did _ := some []
  b64decode _ := some []
  verify _ _ _ := false

/-- Anyone may send it: `x` is the text of an escaped high surrogate. -/
def surrogate : Dict :=
  [(.of "type", .str CAPABILITY_TYPE), (.of "signer", .str (.of "did:key:z6Mk")),
    (.of "sig", .str []), (.of "x", .str [0xd800])]

end Secdogie.Identity.Encoded
