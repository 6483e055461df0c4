/-
# `Secdogie.Atlas.PrivilegeTwin` — the privilege wall a second time, in Python

`atlas.py` is "the Python decision core that matches `native/atlas/`", for the tests
that run without a desktop.  It decides over other types: an unbounded integer for a
mask, a `str` for a path, strings for the integrity and the identity of a token.

`agrees_iff` says where the two decide alike.  The list of the images that are never
inspected has one name less in Python, and the stack of a process is not left out.
-/
import Secdogie.Atlas.PrivilegeWall
import Mathlib.Data.Int.Bitwise

namespace Secdogie.Atlas.Wall

open Hybrid (PrivilegeCode PrivilegeError foldChar)

/-- `PrivilegeCodeName` -/
def PrivilegeCodeName : PrivilegeCode → String
  | .Ok => "ok"
  | .Stripped => "stripped"
  | .DeniedWrite => "denied-write"
  | .DeniedEmpty => "denied-empty"
  | .RefusedIdentity => "refused-identity"
  | .NotElevated => "not-elevated"
  | .Unsupported => "unsupported"
  | .BadCommand => "bad-command"
  | .NotAllowlisted => "not-allowlisted"
  | .NoSession => "no-session"
  | .AccessDenied => "access-denied"
  | .DeniedProtected => "denied-protected"
  | .DeniedEscalate => "denied-escalate"
  | .Failed => "failed"

/-- `IntegrityName` -/
def IntegrityName : Integrity → String
  | .Low => "low"
  | .Medium => "medium"
  | .High => "high"
  | .System => "system"
  | .Unknown => "unknown"

/-- `IdentityName` -/
def IdentityName : Identity → String
  | .User => "user"
  | .Admin => "admin"
  | .System => "system"
  | .TrustedInstaller => "trusted-installer"

structure RemoteRegion where
  size : UInt64 := 0
  committed : Bool := false
  priv : Bool := false
  readable : Bool := false
  execute : Bool := false
  guard : Bool := false
  noaccess : Bool := false
  pathname : Bytes := []

/-- The path is that of a stack, `[stack]` or `[stack:tid]`. -/
def isStack (pathname : Bytes) : Bool := contains pathname (ascii "[stack")

def RegionSafeToRead (r : RemoteRegion) (cfg : InspectConfig) : Bool :=
  if ¬ r.committed ∨ r.size = 0 then false
  else if r.noaccess ∨ r.guard then false
  else if ¬ r.readable then false
  else if r.execute ∧ ¬ cfg.include_executable then false
  else if ¬ r.priv ∧ ¬ cfg.include_mapped then false
  else if ¬ cfg.include_stack ∧ isStack r.pathname then false
  else if r.size > (1 : UInt64) <<< 30 then false
  else true

/-! ## The twin -/

namespace Twin

def PROCESS_VM_READ : ℤ := 0x0010
def PROCESS_VM_WRITE : ℤ := 0x0020
def PROCESS_VM_OPERATION : ℤ := 0x0008
def PROCESS_CREATE_THREAD : ℤ := 0x0002
def PROCESS_QUERY_INFORMATION : ℤ := 0x0400
def PROCESS_QUERY_LIMITED_INFORMATION : ℤ := 0x1000
def PROCESS_SET_INFORMATION : ℤ := 0x0200
def PROCESS_ALL_ACCESS : ℤ := 0x001FFFFF

def READ_ONLY_ACCESS : ℤ :=
  (PROCESS_VM_READ.lor PROCESS_QUERY_INFORMATION).lor PROCESS_QUERY_LIMITED_INFORMATION

def WRITE_ACCESS_BITS : ℤ :=
  ((PROCESS_VM_WRITE.lor PROCESS_VM_OPERATION).lor PROCESS_CREATE_THREAD).lor
    PROCESS_SET_INFORMATION

def OK := "ok"
def STRIPPED := "stripped"
def DENIED_WRITE := "denied-write"
def DENIED_EMPTY := "denied-empty"
def REFUSED_IDENTITY := "refused-identity"
def DENIED_PROTECTED := "denied-protected"
def DENIED_ESCALATE := "denied-escalate"

structure AccessDecision where
  granted : ℤ := 0
  stripped : ℤ := 0
  code : String := OK
  refused : Bool := false

def enforce_read_only (desired : ℤ) : AccessDecision :=
  if desired = 0 then { code := DENIED_EMPTY, refused := true }
  else if desired = PROCESS_ALL_ACCESS ∨ desired.land WRITE_ACCESS_BITS ≠ 0 then
    { stripped := desired.land (WRITE_ACCESS_BITS.lor PROCESS_ALL_ACCESS),
      code := DENIED_WRITE, refused := true }
  else
    let granted := desired.land READ_ONLY_ACCESS
    let stripped := desired.land READ_ONLY_ACCESS.lnot
    if granted = 0 then { stripped := desired, code := DENIED_EMPTY, refused := true }
    else if stripped ≠ 0 then { granted, stripped, code := STRIPPED }
    else { granted, code := OK }

def PROTECTED_IMAGES : List String :=
  ["lsass.exe", "csrss.exe", "smss.exe", "wininit.exe", "services.exe", "lsm.exe", "winlogon.exe",
    "memcompression", "registry", "msmpeng.exe", "msmpengcp.exe", "securityhealthservice.exe"]

def asciiLower (c : Char) : Char := if 'A' ≤ c ∧ c ≤ 'Z' then Char.ofNat (c.toNat + 32) else c

/-- A text is in ASCII. -/
def Ascii (s : List Char) : Prop := ∀ c ∈ s, c.toNat < 128

/-- `str.lower`: a text in ASCII has its capitals lowered, and no other text is lowered to one
in ASCII, but for the Kelvin sign, whose lower case is the letter `k`. -/
structure Lowering where
  lower : List Char → List Char
  ascii : ∀ s, Ascii s → lower s = s.map asciiLower
  ascii_of_lower : ∀ s, Ascii (lower s) → 'k' ∉ lower s → Ascii s

variable (L : Lowering)

/-- `image.replace("\\", "/").rsplit("/", 1)[-1]` -/
def base (image : List Char) : List Char :=
  ((image.map (fun c => if c = '\\' then '/' else c)).reverse.takeWhile (fun c => c ≠ '/')).reverse

local instance lawful_name : LawfulBEq (List Char) := inferInstance

def image_name_denied (image : List Char) : Bool :=
  decide (L.lower (base image) ∈ PROTECTED_IMAGES.map String.toList)

def region_safe_to_read (committed : Bool) (size : ℤ) (readable noaccess guard execute priv : Bool)
    (include_executable include_mapped : Bool := false) : Bool :=
  if ¬ committed ∨ size ≤ 0 then false
  else if noaccess ∨ guard ∨ ¬ readable then false
  else if execute ∧ ¬ include_executable then false
  else if ¬ priv ∧ ¬ include_mapped then false
  else if size > 1 <<< 30 then false
  else true

structure TokenSnapshot where
  pid : ℤ := 0
  integrity : String := "unknown"
  identity : String := "user"
  system : Bool := false
  trusted_installer : Bool := false
  protected_process : Bool := false
  image : List Char := []

def INTEGRITY_RANK : List (String × ℤ) := [("low", 0), ("medium", 1), ("high", 2), ("system", 3)]

structure PrivilegeResult where
  ok : Bool
  code : String
  detail : String := ""

def allow_inspect (self_tok target : TokenSnapshot) : PrivilegeResult :=
  if self_tok.pid ≠ 0 ∧ target.pid ≠ 0 ∧ self_tok.pid = target.pid then ⟨true, OK, "self inspect"⟩
  else if target.trusted_installer then
    ⟨false, DENIED_PROTECTED,
      "Refused: target token is NT SERVICE\\TrustedInstaller. Atlas never " ++
      "inspects or impersonates the servicing identity."⟩
  else if target.protected_process then
    ⟨false, DENIED_PROTECTED, "Refused: target is a protected process (PPL). No PPL bypass."⟩
  else if image_name_denied L target.image then
    ⟨false, DENIED_PROTECTED,
      "Refused: this image is a protected / servicing process (lsass/csrss/PPL family)."⟩
  else if target.identity = "trusted-installer" then
    ⟨false, REFUSED_IDENTITY, "TrustedInstaller identity is never an inspect target."⟩
  else if target.system ∧ ¬ self_tok.system then
    ⟨false, DENIED_ESCALATE,
      "Refused: target is SYSTEM and the operator is not. The wall does not " ++
      "elevate the inspector to match."⟩
  else
    let sr := (INTEGRITY_RANK.lookup self_tok.integrity).getD (-1)
    let tr := (INTEGRITY_RANK.lookup target.integrity).getD (-1)
    if 0 ≤ sr ∧ 0 ≤ tr ∧ sr < tr then
      ⟨false, DENIED_ESCALATE,
        "Refused: target integrity is higher than the operator. Atlas will " ++
        "not steal a higher token to close the gap (downgrade wall)."⟩
    else ⟨true, OK, "inspect allowed"⟩

end Twin

/-! ## Masks -/

theorem land_mask {p : Platform} (m : DWORD p) (k : ℕ) (hk : k < 2 ^ p.dword) :
    (m.toNat : ℤ).land k = ((m &&& BitVec.ofNat _ k).toNat : ℤ) := by
  rw [BitVec.toNat_and, BitVec.toNat_ofNat, Nat.mod_eq_of_lt hk]
  rfl

/-- Leaving out the bits of a constant. -/
theorem land_not_mask {p : Platform} (m : DWORD p) (k : ℕ) :
    (m.toNat : ℤ).land (k : ℤ).lnot = ((m &&& ~~~BitVec.ofNat _ k).toNat : ℤ) := by
  have hland : (m.toNat : ℤ).land (k : ℤ).lnot = (Nat.ldiff m.toNat k : ℤ) := rfl
  rw [hland]
  congr 1
  apply Nat.eq_of_testBit_eq
  intro i
  rw [Nat.testBit_ldiff, BitVec.testBit_toNat, BitVec.testBit_toNat, BitVec.getLsbD_and,
    BitVec.getLsbD_not, BitVec.getLsbD_ofNat]
  by_cases hi : i < p.dword
  · simp only [hi, decide_true, Bool.true_and]
  · rw [BitVec.getLsbD_of_ge m i (not_lt.mp hi)]
    rfl

theorem natCast_eq_zero {p : Platform} (m : DWORD p) : (m.toNat : ℤ) = 0 ↔ m = 0 := by
  rw [Int.natCast_eq_zero, ← BitVec.toNat_inj]
  rfl

/-- The masks of the two are the same numbers. -/
theorem masks_eq (p : Platform) :
    kReadOnlyAccess p = BitVec.ofNat _ 0x1410 ∧ kWriteAccessBits p = BitVec.ofNat _ 0x22A ∧
      kWriteAccessBits p ||| kProcessAllAccess p = BitVec.ofNat _ 0x1FFFFF := by
  cases p with
  | windows => exact ⟨rfl, rfl, rfl⟩
  | posix => exact ⟨rfl, rfl, rfl⟩

theorem small_lt (p : Platform) {k : ℕ} (hk : k < 2 ^ 32) : k < 2 ^ p.dword := by
  cases p with
  | windows => exact hk
  | posix => exact lt_trans hk (by decide)

/-- The decisions are alike. -/
structure SameDecision {p : Platform} (d : AccessDecision p) (d' : Twin.AccessDecision) : Prop where
  granted : (d.granted.toNat : ℤ) = d'.granted
  stripped : (d.stripped.toNat : ℤ) = d'.stripped
  code : PrivilegeCodeName d.code = d'.code
  refused : d.refused = d'.refused

theorem enforce_same {p : Platform} (m : DWORD p) :
    SameDecision (EnforceReadOnly m) (Twin.enforce_read_only m.toNat) := by
  obtain ⟨hread, hwrite, hall⟩ := masks_eq p
  have hland : (m.toNat : ℤ).land Twin.READ_ONLY_ACCESS = ((m &&& kReadOnlyAccess p).toNat : ℤ) := by
    rw [hread]
    exact land_mask m 0x1410 (small_lt p (by decide))
  have hstrip : (m.toNat : ℤ).land Twin.READ_ONLY_ACCESS.lnot =
      ((m &&& ~~~kReadOnlyAccess p).toNat : ℤ) := by
    rw [hread]
    exact land_not_mask m 0x1410
  have hbits : (m.toNat : ℤ).land Twin.WRITE_ACCESS_BITS = ((m &&& kWriteAccessBits p).toNat : ℤ) := by
    rw [hwrite]
    exact land_mask m 0x22A (small_lt p (by decide))
  have hdenied : (m.toNat : ℤ).land (Twin.WRITE_ACCESS_BITS.lor Twin.PROCESS_ALL_ACCESS) =
      ((m &&& (kWriteAccessBits p ||| kProcessAllAccess p)).toNat : ℤ) := by
    rw [hall]
    exact land_mask m 0x1FFFFF (small_lt p (by decide))
  have heq : (m.toNat : ℤ) = Twin.PROCESS_ALL_ACCESS ↔ m = kProcessAllAccess p := by
    rw [← BitVec.toNat_inj]
    unfold kProcessAllAccess
    rw [BitVec.toNat_ofNat, Nat.mod_eq_of_lt (small_lt p (by decide))]
    exact Int.natCast_inj
  have hzero : (0 : DWORD p).toNat = 0 := BitVec.toNat_zero
  unfold EnforceReadOnly Twin.enforce_read_only
  by_cases hnone : m = 0
  · rw [if_pos hnone, if_pos ((natCast_eq_zero m).mpr hnone)]
    exact ⟨congrArg _ hzero, congrArg _ hzero, rfl, rfl⟩
  rw [if_neg hnone, if_neg (fun h => hnone ((natCast_eq_zero m).mp h))]
  have hasks : ((m.toNat : ℤ) = Twin.PROCESS_ALL_ACCESS ∨
      (m.toNat : ℤ).land Twin.WRITE_ACCESS_BITS ≠ 0) ↔
      m = kProcessAllAccess p ∨ m &&& kWriteAccessBits p ≠ 0 := by
    rw [heq, hbits, ne_eq, natCast_eq_zero]
  by_cases hwrites : m = kProcessAllAccess p ∨ m &&& kWriteAccessBits p ≠ 0
  · rw [if_pos hwrites, if_pos (hasks.mpr hwrites)]
    exact ⟨congrArg _ hzero, hdenied.symm, rfl, rfl⟩
  rw [if_neg hwrites, if_neg (fun h => hwrites (hasks.mp h))]
  dsimp only
  rw [hland, hstrip]
  by_cases hempty : m &&& kReadOnlyAccess p = 0
  · -- Nothing is read: what is stripped is the whole mask.
    rw [if_pos hempty, if_pos ((natCast_eq_zero _).mpr hempty)]
    have hwhole : m &&& ~~~kReadOnlyAccess p = m := by
      apply BitVec.eq_of_getLsbD_eq
      intro i hi
      have hbit := congrArg (fun x : DWORD p => x.getLsbD i) hempty
      simp only [BitVec.getLsbD_and, BitVec.ofNat_eq_ofNat, BitVec.getLsbD_zero] at hbit
      rw [BitVec.getLsbD_and, BitVec.getLsbD_not, decide_eq_true hi, Bool.true_and]
      cases hm : m.getLsbD i with
      | false => rfl
      | true => rw [hm, Bool.true_and] at hbit; rw [hbit]; rfl
    refine ⟨?_, ?_, rfl, rfl⟩
    · rw [hempty]
      exact congrArg _ hzero
    · rw [hwhole]
  rw [if_neg hempty, if_neg (fun h => hempty ((natCast_eq_zero _).mp h))]
  by_cases hrest : m &&& ~~~kReadOnlyAccess p ≠ 0
  · rw [if_pos hrest, if_pos (fun h => hrest ((natCast_eq_zero _).mp h))]
    exact ⟨rfl, rfl, rfl, rfl⟩
  · rw [if_neg hrest, if_neg (fun h => h ((natCast_eq_zero _).mpr (not_not.mp hrest)))]
    refine ⟨rfl, ?_, rfl, rfl⟩
    rw [not_not.mp hrest]
    exact congrArg _ hzero

/-! ## Paths -/

/-- The `wchar_t`s of a character: in UTF-16 or in UTF-32. -/
def Platform.units : Platform → Char → Wide
  | windows, c =>
      if c.toNat < 0x10000 then [c.toNat]
      else [0xD800 + (c.toNat - 0x10000) / 0x400, 0xDC00 + (c.toNat - 0x10000) % 0x400]
  | posix, c => [c.toNat]

/-- The `std::wstring` of a path. -/
def Platform.path (p : Platform) (s : List Char) : Wide := s.flatMap p.units

theorem units_ascii (p : Platform) {c : Char} (hc : c.toNat < 128) : p.units c = [c.toNat] := by
  cases p with
  | windows => exact if_pos (by omega)
  | posix => rfl

theorem units_other (p : Platform) {c : Char} (hc : 128 ≤ c.toNat) :
    ∃ u t, p.units c = u :: t ∧ ∀ v ∈ u :: t, 128 ≤ v := by
  cases p with
  | windows =>
      by_cases hone : c.toNat < 0x10000
      · exact ⟨_, [], if_pos hone, fun v hv => by rw [List.mem_singleton.mp hv]; exact hc⟩
      · refine ⟨_, [_], if_neg hone, fun v hv => ?_⟩
        simp only [List.mem_cons, List.not_mem_nil, or_false] at hv
        omega
  | posix => exact ⟨_, _, rfl, fun v hv => by rw [List.mem_singleton.mp hv]; exact hc⟩

theorem units_ne (p : Platform) {c : Char} {k : ℕ} (hk : k < 128) (hc : c.toNat ≠ k) :
    ∀ v ∈ p.units c, v ≠ k := by
  intro v hv
  rcases Nat.lt_or_ge c.toNat 128 with hlt | hge
  · rw [units_ascii p hlt, List.mem_singleton] at hv
    rw [hv]
    exact hc
  · obtain ⟨u, t, heq, hall⟩ := units_other p hge
    rw [heq] at hv
    have := hall v hv
    omega

theorem Basename_append (l t : Wide) (ht : ∀ v ∈ t, v ≠ 47 ∧ v ≠ 92) :
    Basename (l ++ t) = Basename l ++ t := by
  unfold Basename
  rw [List.reverse_append, List.takeWhile_append_of_pos, List.reverse_append, List.reverse_reverse]
  intro v hv
  exact decide_eq_true (ht v (List.mem_reverse.mp hv))

theorem Basename_separator (l : Wide) {v : ℕ} (hv : v = 47 ∨ v = 92) : Basename (l ++ [v]) = [] := by
  unfold Basename
  rw [List.reverse_append, List.reverse_singleton, List.singleton_append, List.takeWhile_cons_of_neg]
  · rfl
  · rw [decide_eq_true_eq]
    omega

namespace Twin

theorem base_append (s : List Char) {c : Char} (hc : c ≠ '/' ∧ c ≠ '\\') :
    base (s ++ [c]) = base s ++ [c] := by
  unfold base
  rw [List.map_append, List.map_singleton, if_neg hc.2, List.reverse_append,
    List.reverse_singleton, List.singleton_append, List.takeWhile_cons_of_pos, List.reverse_cons]
  exact decide_eq_true hc.1

theorem base_separator (s : List Char) {c : Char} (hc : c = '/' ∨ c = '\\') :
    base (s ++ [c]) = [] := by
  have hslash : (if c = '\\' then '/' else c) = '/' := by
    rcases hc with rfl | rfl
    · rfl
    · rfl
  unfold base
  rw [List.map_append, List.map_singleton, hslash, List.reverse_append,
    List.reverse_singleton, List.singleton_append, List.takeWhile_cons_of_neg]
  · rfl
  · decide

end Twin

/-- Both take what stands after the last separator. -/
theorem Basename_path (p : Platform) (s : List Char) :
    Basename (p.path s) = p.path (Twin.base s) := by
  induction s using List.reverseRecOn with
  | nil => rfl
  | append_singleton s c ih =>
      have hpath : p.path (s ++ [c]) = p.path s ++ p.units c := by
        unfold Platform.path
        rw [List.flatMap_append, List.flatMap_singleton]
      rw [hpath]
      by_cases hc : c = '/' ∨ c = '\\'
      · have hunit : ∃ v, p.units c = [v] ∧ (v = 47 ∨ v = 92) := by
          rcases hc with rfl | rfl
          · exact ⟨47, units_ascii p (by decide), .inl rfl⟩
          · exact ⟨92, units_ascii p (by decide), .inr rfl⟩
        obtain ⟨v, hv, hsep⟩ := hunit
        rw [hv, Basename_separator _ hsep, Twin.base_separator s hc]
        rfl
      · push Not at hc
        have hne : ∀ v ∈ p.units c, v ≠ 47 ∧ v ≠ 92 := fun v hv =>
          ⟨units_ne p (by decide) (fun h => hc.1 (Char.toNat_inj.mp h)) v hv,
            units_ne p (by decide) (fun h => hc.2 (Char.toNat_inj.mp h)) v hv⟩
        rw [Basename_append _ _ hne, ih, Twin.base_append s hc]
        unfold Platform.path
        rw [List.flatMap_append, List.flatMap_singleton]

theorem foldChar_ascii {c : Char} (hc : c.toNat < 128) :
    foldChar c.toNat = (Twin.asciiLower c).toNat := by
  have hA : ('A' ≤ c ∧ c ≤ 'Z') ↔ 65 ≤ c.toNat ∧ c.toNat ≤ 90 := Iff.rfl
  unfold foldChar Twin.asciiLower
  by_cases h : 65 ≤ c.toNat ∧ c.toNat ≤ 90
  · rw [if_pos h, if_pos (hA.mpr h), Char.toNat_ofNat, if_pos (Or.inl (by omega))]
  · rw [if_neg h, if_neg (fun h' => h (hA.mp h'))]

theorem asciiLower_other {c : Char} (hc : 128 ≤ c.toNat) : Twin.asciiLower c = c :=
  if_neg (fun h => by
    have hle : c.toNat ≤ 90 := h.2
    omega)

/-- The folded name of a path is a word in ASCII if the lowered name is. -/
theorem fold_path (p : Platform) : ∀ (b d : List Char), Twin.Ascii d →
    (ToLowerAscii (p.path b) = d.map Char.toNat ↔ b.map Twin.asciiLower = d) := by
  intro b
  induction b with
  | nil =>
      intro d hd
      cases d with
      | nil => exact iff_of_true rfl rfl
      | cons e d => exact iff_of_false (fun h => nomatch h) (fun h => nomatch h)
  | cons c b ih =>
      intro d hd
      have hcons : ToLowerAscii (p.path (c :: b)) =
          (p.units c).map foldChar ++ ToLowerAscii (p.path b) := by
        unfold ToLowerAscii Platform.path
        rw [List.flatMap_cons, List.map_append]
      rw [hcons, List.map_cons]
      rcases Nat.lt_or_ge c.toNat 128 with hlt | hge
      · rw [units_ascii p hlt, List.map_singleton, List.singleton_append, foldChar_ascii hlt]
        cases d with
        | nil => exact iff_of_false (fun h => nomatch h) (fun h => nomatch h)
        | cons e d =>
            rw [List.map_cons, List.cons.injEq, List.cons.injEq, Char.toNat_inj,
              ih d (fun x hx => hd x (List.mem_cons_of_mem _ hx))]
      · obtain ⟨u, t, heq, hall⟩ := units_other p hge
        have hu : 128 ≤ foldChar u := by
          have := hall u List.mem_cons_self
          unfold foldChar
          split
          · omega
          · exact this
        rw [heq, List.map_cons, List.cons_append, asciiLower_other hge]
        cases d with
        | nil => exact iff_of_false (fun h => nomatch h) (fun h => nomatch h)
        | cons e d =>
            have he := hd e List.mem_cons_self
            refine iff_of_false (fun h => ?_) (fun h => ?_)
            · have := (List.cons.inj h).1
              omega
            · rw [(List.cons.inj h).1] at hge
              omega

/-! ## Images -/

/-- The image of the secure kernel's process, which the twin's list leaves out. -/
def IsSecureSystem (image : List Char) : Prop :=
  (Twin.base image).map Twin.asciiLower = "secure system".toList

theorem ascii_of_asciiLower {b : List Char} (hb : Twin.Ascii (b.map Twin.asciiLower)) :
    Twin.Ascii b := by
  intro c hc
  by_contra hge
  have hlow := hb _ (List.mem_map_of_mem hc)
  rw [asciiLower_other (not_lt.mp hge)] at hlow
  exact hge hlow

/-- No word of the lists has a `k`. -/
theorem protected_ascii : ∀ d ∈ kDenied.map String.toList, Twin.Ascii d ∧ 'k' ∉ d := by
  have hall : (kDenied.map String.toList).all
      (fun d => d.all (fun c => decide (c.toNat < 128) && decide (c ≠ 'k'))) = true := rfl
  intro d hd
  have hword := List.all_eq_true.mp hall d hd
  have hletter : ∀ c ∈ d, c.toNat < 128 ∧ c ≠ 'k' := by
    intro c hc
    simpa using List.all_eq_true.mp hword c hc
  exact ⟨fun c hc => (hletter c hc).1, fun hk => (hletter _ hk).2 rfl⟩

theorem kDenied_eq : kDenied = Twin.PROTECTED_IMAGES ++ ["secure system"] := rfl

variable (L : Twin.Lowering)

theorem lower_eq_iff {b d : List Char} (hd : Twin.Ascii d) (hk : 'k' ∉ d) :
    L.lower b = d ↔ b.map Twin.asciiLower = d := by
  constructor
  · rintro rfl
    exact (L.ascii b (L.ascii_of_lower b hd hk)).symm
  · rintro rfl
    exact L.ascii b (ascii_of_asciiLower hd)

theorem image_name_denied_iff (image : List Char) : Twin.image_name_denied L image = true ↔
    (Twin.base image).map Twin.asciiLower ∈ Twin.PROTECTED_IMAGES.map String.toList := by
  have hword : ∀ d ∈ Twin.PROTECTED_IMAGES.map String.toList, Twin.Ascii d ∧ 'k' ∉ d := by
    intro d hd
    refine protected_ascii d ?_
    rw [kDenied_eq, List.map_append]
    exact List.mem_append_left _ hd
  unfold Twin.image_name_denied
  rw [decide_eq_true_eq]
  constructor
  · intro hmem
    obtain ⟨hd, hk⟩ := hword _ hmem
    rwa [(lower_eq_iff L hd hk).mp rfl]
  · intro hmem
    obtain ⟨hd, hk⟩ := hword _ hmem
    rwa [(lower_eq_iff L hd hk).mpr rfl]

theorem ImageNameDenied_path (p : Platform) (image : List Char) :
    ImageNameDenied (p.path image) = true ↔
      (Twin.base image).map Twin.asciiLower ∈ kDenied.map String.toList := by
  unfold ImageNameDenied wide
  rw [decide_eq_true_eq, Basename_path, List.mem_map, List.mem_map]
  constructor
  · rintro ⟨w, hw, heq⟩
    have hword := (protected_ascii _ (List.mem_map_of_mem hw)).1
    exact ⟨w, hw, ((fold_path p _ _ hword).mp heq.symm).symm⟩
  · rintro ⟨w, hw, heq⟩
    have hword := (protected_ascii _ (List.mem_map_of_mem hw)).1
    exact ⟨w, hw, ((fold_path p _ _ hword).mpr heq.symm).symm⟩

theorem ImageNameDenied_twin (p : Platform) (image : List Char) :
    ImageNameDenied (p.path image) = true ↔
      Twin.image_name_denied L image = true ∨ IsSecureSystem image := by
  rw [ImageNameDenied_path, image_name_denied_iff, kDenied_eq, List.map_append, List.mem_append]
  unfold IsSecureSystem
  rw [List.map_singleton, List.mem_singleton]

theorem not_denied_of_secure {image : List Char} (h : IsSecureSystem image) :
    Twin.image_name_denied L image = false := by
  rw [Bool.eq_false_iff, ne_eq, image_name_denied_iff, h]
  decide

/-- The names of images are denied alike, but for the one. -/
theorem images_same (p : Platform) (image : List Char) :
    ImageNameDenied (p.path image) = Twin.image_name_denied L image ↔ ¬ IsSecureSystem image := by
  have hboth := ImageNameDenied_twin L p image
  constructor
  · intro hsame hsecure
    rw [hsame, not_denied_of_secure L hsecure] at hboth
    exact Bool.false_ne_true (hboth.mpr (.inr hsecure))
  · intro hnot
    rw [Bool.eq_iff_iff, hboth]
    exact or_iff_left hnot

/-! ## Regions -/

/-- The region as the twin is asked about it. -/
def RemoteRegion.twin (r : RemoteRegion) : Bool :=
  Twin.region_safe_to_read r.committed r.size.toNat r.readable r.noaccess r.guard r.execute r.priv

/-- A region that is read, but for the name it may have: committed, private, readable,
not executable, not guarded, and not too large. -/
structure Readable (r : RemoteRegion) : Prop where
  committed : r.committed = true
  priv : r.priv = true
  readable : r.readable = true
  execute : r.execute = false
  guard : r.guard = false
  noaccess : r.noaccess = false
  size : 0 < r.size.toNat ∧ r.size.toNat ≤ 2 ^ 30

/-- A check that refuses, before the others. -/
theorem refuse_iff {P : Prop} [Decidable P] {b : Bool} :
    (if P then false else b) = true ↔ ¬ P ∧ b = true := by
  by_cases h : P
  · simp only [h, ↓reduceIte, Bool.false_eq_true, not_true_eq_false, false_and]
  · simp only [h, ↓reduceIte, not_false_eq_true, true_and]

theorem twin_iff (r : RemoteRegion) : r.twin = true ↔ Readable r := by
  have hshift : ((r.size.toNat : ℤ) > 1 <<< 30) ↔ 2 ^ 30 < r.size.toNat := by
    show (2 ^ 30 : ℤ) < _ ↔ _
    omega
  unfold RemoteRegion.twin Twin.region_safe_to_read
  simp only [refuse_iff, hshift, not_or, Bool.not_eq_true, Bool.not_eq_false, Bool.false_eq_true,
    not_false_eq_true, and_true]
  constructor
  · rintro ⟨⟨hcommitted, hsize⟩, ⟨hnoaccess, hguard, hreadable⟩, hexec, hpriv, hlarge⟩
    exact ⟨hcommitted, by simpa using hpriv, hreadable, by simpa using hexec, hguard, hnoaccess,
      by omega⟩
  · rintro ⟨hcommitted, hpriv, hreadable, hexec, hguard, hnoaccess, hsize⟩
    refine ⟨⟨hcommitted, by omega⟩, ⟨hnoaccess, hguard, hreadable⟩, by simpa using hexec,
      by simpa using hpriv, by omega⟩

theorem RegionSafeToRead_iff (r : RemoteRegion) :
    RegionSafeToRead r {} = true ↔ Readable r ∧ isStack r.pathname = false := by
  have hzero : r.size = 0 ↔ r.size.toNat = 0 := UInt64.toNat_inj.symm
  have hlarge : r.size > (1 : UInt64) <<< 30 ↔ 2 ^ 30 < r.size.toNat := UInt64.lt_iff_toNat_lt
  unfold RegionSafeToRead
  simp only [refuse_iff, hlarge, hzero, not_or, Bool.not_eq_true, Bool.not_eq_false,
    Bool.false_eq_true, not_false_eq_true, and_true, true_and]
  constructor
  · rintro ⟨⟨hcommitted, hsize⟩, ⟨hnoaccess, hguard⟩, hreadable, hexec, hpriv, hstack, hlarge⟩
    exact ⟨⟨hcommitted, by simpa using hpriv, hreadable, by simpa using hexec, hguard, hnoaccess,
      by omega⟩, hstack⟩
  · rintro ⟨⟨hcommitted, hpriv, hreadable, hexec, hguard, hnoaccess, hsize⟩, hstack⟩
    exact ⟨⟨hcommitted, by omega⟩, ⟨hnoaccess, hguard⟩, hreadable, by simpa using hexec,
      by simpa using hpriv, hstack, by omega⟩

/-- The regions are read alike, but for the stacks. -/
theorem regions_same (r : RemoteRegion) :
    RegionSafeToRead r {} = r.twin ↔ ¬ (Readable r ∧ isStack r.pathname = true) := by
  rw [Bool.eq_iff_iff, RegionSafeToRead_iff, twin_iff]
  constructor
  · rintro hsame ⟨hread, hstack⟩
    rw [(hsame.mpr hread).2] at hstack
    exact Bool.false_ne_true hstack
  · intro hnot
    refine ⟨fun h => h.1, fun hread => ⟨hread, ?_⟩⟩
    rw [Bool.eq_false_iff]
    exact fun hstack => hnot ⟨hread, hstack⟩

/-! ## Tokens -/

/-- A token, with the image as a text. -/
structure Token where
  pid : Pid := 0
  integrity : Integrity := .Unknown
  identity : Identity := .User
  system : Bool := false
  trusted_installer : Bool := false
  protected_process : Bool := false
  image : List Char := []

def Token.native (p : Platform) (t : Token) : TokenSnapshot :=
  { t with image := p.path t.image }

/-- The token in Python, where its integrity and its identity go by their names. -/
def Token.twin (t : Token) : Twin.TokenSnapshot :=
  { t with
    pid := t.pid.toNat
    integrity := IntegrityName t.integrity
    identity := IdentityName t.identity }

structure SameResult (e : PrivilegeError) (r : Twin.PrivilegeResult) : Prop where
  ok : decide (e.code = .Ok) = r.ok
  code : PrivilegeCodeName e.code = r.code

theorem rank_twin (i : Integrity) :
    (Twin.INTEGRITY_RANK.lookup (IntegrityName i)).getD (-1) = IntegrityRank i := by
  cases i with
  | Unknown => rfl
  | Low => rfl
  | Medium => rfl
  | High => rfl
  | System => rfl

theorem identity_twin (i : Identity) : IdentityName i = "trusted-installer" ↔ i = .TrustedInstaller := by
  cases i with
  | User => exact iff_of_false (by decide) (fun h => nomatch h)
  | Admin => exact iff_of_false (by decide) (fun h => nomatch h)
  | System => exact iff_of_false (by decide) (fun h => nomatch h)
  | TrustedInstaller => exact iff_of_true rfl rfl

theorem samePid_twin (p : Platform) (self target : Token) :
    (self.twin.pid ≠ 0 ∧ target.twin.pid ≠ 0 ∧ self.twin.pid = target.twin.pid) ↔
      SamePid (self.native p) (target.native p) := by
  have hzero : ∀ t : Token, t.twin.pid = 0 ↔ (t.native p).pid = 0 := fun t =>
    Int.natCast_eq_zero.trans (@UInt32.toNat_inj t.pid 0)
  have hsame : self.twin.pid = target.twin.pid ↔ (self.native p).pid = (target.native p).pid :=
    Int.natCast_inj.trans (@UInt32.toNat_inj self.pid target.pid)
  unfold SamePid
  rw [ne_eq, hzero, ne_eq, hzero, hsame]

/-- The image decides: nothing is looked at before it that decides. -/
structure ImageDecides (own target : Token) : Prop where
  pid : ¬ (own.pid ≠ 0 ∧ target.pid ≠ 0 ∧ own.pid = target.pid)
  installer : target.trusted_installer = false
  protected_process : target.protected_process = false

/-- What the twin answers past the images is not that the target is protected. -/
theorem twin_past_image {self target : Token} (h : ImageDecides self target)
    (himage : Twin.image_name_denied L target.image = false) :
    (Twin.allow_inspect L self.twin target.twin).code ≠ Twin.DENIED_PROTECTED := by
  have hpid : ¬ (self.twin.pid ≠ 0 ∧ target.twin.pid ≠ 0 ∧ self.twin.pid = target.twin.pid) :=
    fun hsame => h.pid ((samePid_twin .posix self target).mp hsame)
  have hti : target.twin.trusted_installer = false := h.installer
  have hppl : target.twin.protected_process = false := h.protected_process
  have himage' : Twin.image_name_denied L target.twin.image = false := himage
  unfold Twin.allow_inspect
  rw [if_neg hpid, hti, hppl, himage']
  simp only [Bool.false_eq_true, ↓reduceIte]
  split
  · decide
  split
  · decide
  split
  · decide
  · decide

/-- The tokens are weighed alike, but where the name of the image alone decides, and it is the
one that the twin's list leaves out. -/
theorem tokens_same (p : Platform) (self target : Token) :
    SameResult (AllowInspect (self.native p) (target.native p))
        (Twin.allow_inspect L self.twin target.twin) ↔
      ¬ (ImageDecides self target ∧ IsSecureSystem target.image) := by
  by_cases hskip : ImageDecides self target ∧ IsSecureSystem target.image
  · refine iff_of_false (fun hsame => ?_) (not_not.mpr hskip)
    obtain ⟨hdecides, hsecure⟩ := hskip
    have hdenied : ImageNameDenied (target.native p).image = true :=
      (ImageNameDenied_twin L p target.image).mpr (.inr hsecure)
    have hpid : ¬ ((self.native p).pid ≠ 0 ∧ (target.native p).pid ≠ 0 ∧
        (self.native p).pid = (target.native p).pid) := hdecides.pid
    have hti : (target.native p).trusted_installer = false := hdecides.installer
    have hppl : (target.native p).protected_process = false := hdecides.protected_process
    have hnative : (AllowInspect (self.native p) (target.native p)).code = .DeniedProtected := by
      unfold AllowInspect
      rw [if_neg hpid, hti, hppl, hdenied]
      rfl
    have hcode := hsame.code
    rw [hnative] at hcode
    exact twin_past_image L hdecides (not_denied_of_secure L hsecure) hcode.symm
  refine iff_of_true ?_ hskip
  have hti : (target.native p).trusted_installer = target.twin.trusted_installer := rfl
  have hppl : (target.native p).protected_process = target.twin.protected_process := rfl
  have hsystem : (target.native p).system = target.twin.system := rfl
  have hsystem' : (self.native p).system = self.twin.system := rfl
  have hid : (target.native p).identity = .TrustedInstaller ↔
      target.twin.identity = "trusted-installer" := (identity_twin target.identity).symm
  have hrank : IntegrityRank (target.native p).integrity =
      (Twin.INTEGRITY_RANK.lookup target.twin.integrity).getD (-1) := (rank_twin target.integrity).symm
  have hrank' : IntegrityRank (self.native p).integrity =
      (Twin.INTEGRITY_RANK.lookup self.twin.integrity).getD (-1) := (rank_twin self.integrity).symm
  unfold AllowInspect Twin.allow_inspect
  by_cases hpid : self.twin.pid ≠ 0 ∧ target.twin.pid ≠ 0 ∧ self.twin.pid = target.twin.pid
  · have hsame : (self.native p).pid ≠ 0 ∧ (target.native p).pid ≠ 0 ∧
        (self.native p).pid = (target.native p).pid := (samePid_twin p self target).mp hpid
    rw [if_pos hpid, if_pos hsame]
    exact ⟨rfl, rfl⟩
  have hpid' : ¬ ((self.native p).pid ≠ 0 ∧ (target.native p).pid ≠ 0 ∧
      (self.native p).pid = (target.native p).pid) := fun hsame => hpid ((samePid_twin p self target).mpr hsame)
  rw [if_neg hpid, if_neg hpid', hti, hppl]
  by_cases hinstaller : target.twin.trusted_installer = true
  · rw [if_pos hinstaller, if_pos hinstaller]
    exact ⟨rfl, rfl⟩
  rw [if_neg hinstaller, if_neg hinstaller]
  by_cases hprotected : target.twin.protected_process = true
  · rw [if_pos hprotected, if_pos hprotected]
    exact ⟨rfl, rfl⟩
  rw [if_neg hprotected, if_neg hprotected]
  have hsecure : ¬ IsSecureSystem target.image := fun hsecure => hskip
    ⟨⟨hpid', Bool.eq_false_of_not_eq_true hinstaller, Bool.eq_false_of_not_eq_true hprotected⟩,
      hsecure⟩
  have himage : ImageNameDenied (target.native p).image =
      Twin.image_name_denied L target.twin.image := (images_same L p target.image).mpr hsecure
  rw [himage]
  by_cases hdenied : Twin.image_name_denied L target.twin.image = true
  · rw [if_pos hdenied, if_pos hdenied]
    exact ⟨rfl, rfl⟩
  rw [if_neg hdenied, if_neg hdenied]
  by_cases hidentity : target.twin.identity = "trusted-installer"
  · rw [if_pos hidentity, if_pos (hid.mpr hidentity)]
    exact ⟨rfl, rfl⟩
  rw [if_neg hidentity, if_neg (fun h => hidentity (hid.mp h)), hsystem, hsystem']
  by_cases hsys : target.twin.system = true ∧ ¬ self.twin.system = true
  · rw [if_pos hsys, if_pos hsys]
    exact ⟨rfl, rfl⟩
  rw [if_neg hsys, if_neg hsys, hrank, hrank']
  dsimp only
  split
  · exact ⟨rfl, rfl⟩
  · exact ⟨rfl, rfl⟩

/-! ## Where the two decide alike -/

/-- On a mask, a path, a region and a pair of tokens. -/
structure Agrees (p : Platform) (desired : DWORD p) (image : List Char) (r : RemoteRegion)
    (own target : Token) : Prop where
  access : SameDecision (EnforceReadOnly desired) (Twin.enforce_read_only desired.toNat)
  image : ImageNameDenied (p.path image) = Twin.image_name_denied L image
  region : RegionSafeToRead r {} = r.twin
  token : SameResult (AllowInspect (own.native p) (target.native p))
    (Twin.allow_inspect L own.twin target.twin)

theorem agrees_iff (p : Platform) (desired : DWORD p) (image : List Char) (r : RemoteRegion)
    (self target : Token) :
    Agrees L p desired image r self target ↔ ¬ IsSecureSystem image ∧
      ¬ (Readable r ∧ isStack r.pathname = true) ∧
        ¬ (ImageDecides self target ∧ IsSecureSystem target.image) := by
  constructor
  · rintro ⟨_, himage, hregion, htoken⟩
    exact ⟨(images_same L p image).mp himage, (regions_same r).mp hregion,
      (tokens_same L p self target).mp htoken⟩
  · rintro ⟨himage, hregion, htoken⟩
    exact ⟨enforce_same desired, (images_same L p image).mpr himage, (regions_same r).mpr hregion,
      (tokens_same L p self target).mpr htoken⟩

/-- The lower case of a text in ASCII; of no other text is it used. -/
def asciiLowering : Twin.Lowering where
  lower s := s.map Twin.asciiLower
  ascii _ _ := rfl
  ascii_of_lower _ h _ := ascii_of_asciiLower h

/-- The stack of a process, as `/proc/<pid>/maps` lists it. -/
def stackRegion : RemoteRegion where
  size := 135168
  committed := true
  priv := true
  readable := true
  pathname := ascii "[stack]"

/-- The stack is read by the twin only. -/
theorem stack_differs : ¬ ∀ (L : Twin.Lowering) (p : Platform) (desired : DWORD p)
    (image : List Char) (r : RemoteRegion) (self target : Token),
    Agrees L p desired image r self target := by
  intro hall
  have hregion := (hall asciiLowering .posix 0 [] stackRegion {} {}).region
  refine (regions_same stackRegion).mp hregion ⟨⟨rfl, rfl, rfl, rfl, rfl, rfl, ?_⟩, ?_⟩
  · exact ⟨by decide, by decide⟩
  · decide

end Secdogie.Atlas.Wall
