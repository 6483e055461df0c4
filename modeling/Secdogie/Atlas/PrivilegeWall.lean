/-
# `Secdogie.Atlas.PrivilegeWall` — the wall before a process is inspected

Before the handle of a process is opened its token is queried, and the operator's
own, and the wall compares the two.  It does so when both queries succeed.  When the
target's token was refused nothing is compared, and when the operator's was, only
the name of the image is.

`failsClosed_iff` says when a handle is opened behind a wall that was not asked,
or was asked about a token it cannot rank.
-/
import Secdogie.Atlas.ControlLoop

namespace Secdogie.Atlas.Wall

open Hybrid (PrivilegeCode PrivilegeError foldChar)

inductive Integrity where
  | Unknown | Low | Medium | High | System
deriving DecidableEq

inductive Identity where
  | User | Admin | System | TrustedInstaller
deriving DecidableEq

structure TokenSnapshot where
  pid : Pid := 0
  integrity : Integrity := .Unknown
  identity : Identity := .User
  system : Bool := false
  trusted_installer : Bool := false
  protected_process : Bool := false
  image : Wide := []
deriving DecidableEq

def IntegrityRank : Integrity → ℤ
  | .Low => 0
  | .Medium => 1
  | .High => 2
  | .System => 3
  | .Unknown => -1

/-! ## The right to read -/

/-- A `DWORD` is an `unsigned long` where there is none. -/
inductive Platform where
  | windows | posix

def Platform.dword : Platform → ℕ
  | windows => 32
  | posix => 64

abbrev DWORD (p : Platform) := BitVec p.dword

def kProcessVmRead (p : Platform) : DWORD p := BitVec.ofNat _ 0x0010
def kProcessVmWrite (p : Platform) : DWORD p := BitVec.ofNat _ 0x0020
def kProcessVmOperation (p : Platform) : DWORD p := BitVec.ofNat _ 0x0008
def kProcessCreateThread (p : Platform) : DWORD p := BitVec.ofNat _ 0x0002
def kProcessQueryInformation (p : Platform) : DWORD p := BitVec.ofNat _ 0x0400
def kProcessQueryLimitedInformation (p : Platform) : DWORD p := BitVec.ofNat _ 0x1000
def kProcessSetInformation (p : Platform) : DWORD p := BitVec.ofNat _ 0x0200
def kProcessAllAccess (p : Platform) : DWORD p := BitVec.ofNat _ 0x001FFFFF

def kReadOnlyAccess (p : Platform) : DWORD p :=
  kProcessVmRead p ||| kProcessQueryInformation p ||| kProcessQueryLimitedInformation p

def kWriteAccessBits (p : Platform) : DWORD p :=
  kProcessVmWrite p ||| kProcessVmOperation p ||| kProcessCreateThread p |||
    kProcessSetInformation p

structure AccessDecision (p : Platform) where
  granted : DWORD p := 0
  stripped : DWORD p := 0
  code : PrivilegeCode := .Ok
  refused : Bool := false

def EnforceReadOnly {p : Platform} (desired : DWORD p) : AccessDecision p :=
  if desired = 0 then { refused := true, code := .DeniedEmpty }
  else if desired = kProcessAllAccess p ∨ desired &&& kWriteAccessBits p ≠ 0 then
    { refused := true, code := .DeniedWrite,
      stripped := desired &&& (kWriteAccessBits p ||| kProcessAllAccess p) }
  else
    let granted := desired &&& kReadOnlyAccess p
    let stripped := desired &&& ~~~kReadOnlyAccess p
    if granted = 0 then { granted, stripped, refused := true, code := .DeniedEmpty }
    else { granted, stripped, code := if stripped ≠ 0 then .Stripped else .Ok }

/-- No bit that lets write is one of those that let read. -/
theorem readOnly_and_write (p : Platform) : kReadOnlyAccess p &&& kWriteAccessBits p = 0 := by
  cases p with
  | windows => rfl
  | posix => rfl

/-- What is granted lets write nothing. -/
theorem EnforceReadOnly_granted {p : Platform} (desired : DWORD p) :
    (EnforceReadOnly desired).granted &&& kWriteAccessBits p = 0 := by
  have hzero : (0 : DWORD p) &&& kWriteAccessBits p = 0 := BitVec.zero_and
  have hmasked : (desired &&& kReadOnlyAccess p) &&& kWriteAccessBits p = 0 := by
    rw [BitVec.and_assoc, readOnly_and_write]
    exact BitVec.and_zero
  unfold EnforceReadOnly
  split
  · exact hzero
  split
  · exact hzero
  dsimp only
  split
  · exact hmasked
  · exact hmasked

theorem EnforceReadOnly_readOnly (p : Platform) :
    EnforceReadOnly (kReadOnlyAccess p) = { granted := kReadOnlyAccess p } := by
  cases p with
  | windows => rfl
  | posix => rfl

/-! ## The images that are never inspected -/

def wide (s : String) : Wide := s.toList.map Char.toNat

/-- `Basename` of a wide path, after the last `\` or `/` -/
def Basename (path : Wide) : Wide :=
  (path.reverse.takeWhile (fun c => c ≠ 47 ∧ c ≠ 92)).reverse

def ToLowerAscii (s : Wide) : Wide := s.map foldChar

def kDenied : List String :=
  ["lsass.exe", "csrss.exe", "smss.exe", "wininit.exe", "services.exe", "lsm.exe", "winlogon.exe",
    "memcompression", "registry", "msmpeng.exe", "msmpengcp.exe", "securityhealthservice.exe",
    "secure system"]

local instance lawful_wide : LawfulBEq Wide := inferInstance

def ImageNameDenied (image : Wide) : Bool :=
  decide (ToLowerAscii (Basename image) ∈ kDenied.map wide)

/-! ## The wall -/

def AllowInspect (self target : TokenSnapshot) : PrivilegeError :=
  if self.pid ≠ 0 ∧ target.pid ≠ 0 ∧ self.pid = target.pid then ⟨.Ok, "self inspect"⟩
  else if target.trusted_installer then
    ⟨.DeniedProtected,
      "Refused: target token is NT SERVICE\\TrustedInstaller. Atlas never " ++
      "inspects or impersonates the servicing identity."⟩
  else if target.protected_process then
    ⟨.DeniedProtected, "Refused: target is a protected process (PPL). No PPL bypass."⟩
  else if ImageNameDenied target.image then
    ⟨.DeniedProtected,
      "Refused: this image is a protected / servicing process (lsass/csrss/PPL family)."⟩
  else if target.identity = .TrustedInstaller then
    ⟨.RefusedIdentity, "TrustedInstaller identity is never an inspect target."⟩
  else if target.system ∧ ¬ self.system then
    ⟨.DeniedEscalate,
      "Refused: target is SYSTEM and the operator is not. The wall does not " ++
      "elevate the inspector to match. Start already-SYSTEM, or pick a user-session GUI process."⟩
  else
    let sr := IntegrityRank self.integrity
    let tr := IntegrityRank target.integrity
    if 0 ≤ sr ∧ 0 ≤ tr ∧ sr < tr then
      ⟨.DeniedEscalate,
        "Refused: target integrity is higher than the operator. Atlas will " ++
        "not steal a higher token to close the gap (downgrade wall)."⟩
    else ⟨.Ok, "inspect allowed"⟩

/-- The tokens name one process. -/
def SamePid (self target : TokenSnapshot) : Prop :=
  self.pid ≠ 0 ∧ target.pid ≠ 0 ∧ self.pid = target.pid

/-- Nothing about the target itself bars it. -/
structure Unprotected (target : TokenSnapshot) : Prop where
  installer : target.trusted_installer = false
  identity : target.identity ≠ .TrustedInstaller
  protected_process : target.protected_process = false
  image : ImageNameDenied target.image = false

/-- The wall lets through the operator's own process, and a target that nothing bars,
that is SYSTEM for a SYSTEM operator only, and not known to rank higher. -/
theorem AllowInspect_ok (self target : TokenSnapshot) :
    (AllowInspect self target).code = .Ok ↔ SamePid self target ∨
      Unprotected target ∧ (target.system = true → self.system = true) ∧
        (0 ≤ IntegrityRank self.integrity →
          IntegrityRank target.integrity ≤ IntegrityRank self.integrity) := by
  unfold AllowInspect
  by_cases hsame : self.pid ≠ 0 ∧ target.pid ≠ 0 ∧ self.pid = target.pid
  · rw [if_pos hsame]
    exact iff_of_true rfl (.inl hsame)
  have hno : ∀ {P : Prop}, ¬ P → ((SamePid self target ∨ P) ↔ False) := fun hP =>
    iff_false_intro (fun h => h.elim hsame hP)
  rw [if_neg hsame]
  by_cases hti : target.trusted_installer = true
  · rw [if_pos hti, hno (fun h => absurd hti (by rw [h.1.installer]; exact Bool.false_ne_true))]
    exact iff_false_intro (fun h => nomatch h)
  by_cases hppl : target.protected_process = true
  · rw [if_neg hti, if_pos hppl,
      hno (fun h => absurd hppl (by rw [h.1.protected_process]; exact Bool.false_ne_true))]
    exact iff_false_intro (fun h => nomatch h)
  by_cases himage : ImageNameDenied target.image = true
  · rw [if_neg hti, if_neg hppl, if_pos himage,
      hno (fun h => absurd himage (by rw [h.1.image]; exact Bool.false_ne_true))]
    exact iff_false_intro (fun h => nomatch h)
  by_cases hid : target.identity = .TrustedInstaller
  · rw [if_neg hti, if_neg hppl, if_neg himage, if_pos hid, hno (fun h => h.1.identity hid)]
    exact iff_false_intro (fun h => nomatch h)
  have hfree : Unprotected target :=
    ⟨Bool.eq_false_of_not_eq_true hti, hid, Bool.eq_false_of_not_eq_true hppl,
      Bool.eq_false_of_not_eq_true himage⟩
  by_cases hsys : target.system = true ∧ ¬ self.system = true
  · rw [if_neg hti, if_neg hppl, if_neg himage, if_neg hid, if_pos hsys,
      hno (fun h => hsys.2 (h.2.1 hsys.1))]
    exact iff_false_intro (fun h => nomatch h)
  have hsystem : target.system = true → self.system = true := fun h =>
    Decidable.byContradiction (fun hself => hsys ⟨h, hself⟩)
  rw [if_neg hti, if_neg hppl, if_neg himage, if_neg hid, if_neg hsys]
  dsimp only
  by_cases hrank : 0 ≤ IntegrityRank self.integrity ∧ 0 ≤ IntegrityRank target.integrity ∧
      IntegrityRank self.integrity < IntegrityRank target.integrity
  · rw [if_pos hrank, hno (fun h => absurd (h.2.2 hrank.1) (not_le.mpr hrank.2.2))]
    exact iff_false_intro (fun h => nomatch h)
  · rw [if_neg hrank]
    exact iff_of_true rfl (.inr ⟨hfree, hsystem, fun h => by omega⟩)

/-! ## Inspecting a process -/

structure InspectConfig where
  include_executable : Bool := false
  include_mapped : Bool := false
  include_stack : Bool := false
  allow_debug_privilege : Bool := false

structure ReadOnlyProcessHandle (p : Platform) where
  granted : DWORD p
  pid : Pid

/-- What an inspection found, of which only the token and what was closed is set here. -/
structure InspectSnapshot where
  token : TokenSnapshot := {}
  handle_closed : Bool := false
  token_closed : Bool := false
  strings : List Wide := []

/-- What the system answers: to the two queries, to a request for a handle, without and with
the debug privilege (nothing if it gives one), and to a read through the handle. -/
structure Host where
  platform : Platform
  own : Pid
  QueryOwnToken : Except PrivilegeError TokenSnapshot
  queryToken : Pid → Except PrivilegeError TokenSnapshot
  openProcess : Bool → DWORD platform → Pid → Option PrivilegeError
  InspectHandle : ReadOnlyProcessHandle platform → InspectConfig →
    Except PrivilegeError InspectSnapshot

namespace Host

variable (h : Host)

def pidZero : PrivilegeError := ⟨.DeniedEmpty, "pid 0 is not inspectable."⟩

def QueryProcessToken (pid : Pid) : Except PrivilegeError TokenSnapshot :=
  if pid = 0 then .error pidZero else h.queryToken pid

/-- `ReadOnlyProcessHandle::Open` -/
def Open (debug : Bool) (pid : Pid) (desired : DWORD h.platform) :
    Except PrivilegeError (ReadOnlyProcessHandle h.platform) :=
  let gate := EnforceReadOnly desired
  if gate.refused then
    .error ⟨gate.code,
      if gate.code = .DeniedWrite then
        "Write access refused. Atlas never grants PROCESS_VM_WRITE, " ++
        "PROCESS_VM_OPERATION, PROCESS_CREATE_THREAD, or PROCESS_ALL_ACCESS."
      else "Handle request empty after read-only mask."⟩
  else if pid = 0 then .error pidZero
  else
    match h.openProcess debug gate.granted pid with
    | some e => .error e
    | none => .ok ⟨gate.granted, pid⟩

/-- What stands between the queries and the handle. -/
def refusal (self_tok tgt_tok : Except PrivilegeError TokenSnapshot) : Option PrivilegeError :=
  match self_tok, tgt_tok with
  | .ok self, .ok target =>
      let wall := AllowInspect self target
      if wall.code ≠ .Ok then some wall else none
  | .error _, .ok target =>
      if ImageNameDenied target.image then
        some ⟨.DeniedProtected, "Refused: protected image (token query)."⟩
      else none
  | _, .error _ => none

/-- The second time the debug privilege is held. -/
def opened (cfg : InspectConfig) (pid : Pid) :
    Except PrivilegeError (ReadOnlyProcessHandle h.platform) :=
  match h.Open false pid (kReadOnlyAccess _) with
  | .ok handle => .ok handle
  | .error e =>
      if cfg.allow_debug_privilege then h.Open true pid (kReadOnlyAccess _) else .error e

def closed (pid : Pid) (self_tok tgt_tok : Except PrivilegeError TokenSnapshot)
    (snap : InspectSnapshot) : InspectSnapshot :=
  { snap with
    handle_closed := true
    token_closed := true
    token :=
      match tgt_tok, self_tok with
      | .ok target, _ => target
      | .error _, .ok self => if pid = self.pid then self else snap.token
      | .error _, .error _ => snap.token }

/-- What is returned, and the handles that were opened for it. -/
def InspectPid (cfg : InspectConfig) (pid : Pid) :
    Except PrivilegeError InspectSnapshot × List (ReadOnlyProcessHandle h.platform) :=
  if pid = 0 then (.error pidZero, [])
  else
    let self_tok := h.QueryOwnToken
    let tgt_tok := h.QueryProcessToken pid
    match refusal self_tok tgt_tok with
    | some err => (.error err, [])
    | none =>
        match h.opened cfg pid with
        | .error e => (.error e, [])
        | .ok handle => ((h.InspectHandle handle cfg).map (closed pid self_tok tgt_tok), [handle])

/-! ### Handles -/

theorem Open_readOnly (debug : Bool) {pid : Pid} (hpid : pid ≠ 0)
    (handle : ReadOnlyProcessHandle h.platform) :
    h.Open debug pid (kReadOnlyAccess _) = .ok handle ↔
      handle = ⟨kReadOnlyAccess _, pid⟩ ∧ h.openProcess debug (kReadOnlyAccess _) pid = none := by
  unfold Open
  rw [EnforceReadOnly_readOnly]
  simp only [Bool.false_eq_true, hpid, ↓reduceIte]
  cases h.openProcess debug (kReadOnlyAccess _) pid with
  | some e => simp only [reduceCtorEq, and_false]
  | none =>
      simp only [Except.ok.injEq, and_true]
      exact eq_comm

/-- The system gives a handle of the process, if with the debug privilege only. -/
def Grants (cfg : InspectConfig) (pid : Pid) : Prop :=
  h.openProcess false (kReadOnlyAccess _) pid = none ∨
    cfg.allow_debug_privilege = true ∧ h.openProcess true (kReadOnlyAccess _) pid = none

theorem opened_ok {cfg : InspectConfig} {pid : Pid} (hpid : pid ≠ 0)
    (handle : ReadOnlyProcessHandle h.platform) :
    h.opened cfg pid = .ok handle ↔ handle = ⟨kReadOnlyAccess _, pid⟩ ∧ h.Grants cfg pid := by
  have hplain := h.Open_readOnly false hpid handle
  have hdebug := h.Open_readOnly true hpid handle
  unfold opened Grants
  cases hfirst : h.Open false pid (kReadOnlyAccess _) with
  | ok first =>
      have hgranted := (h.Open_readOnly false hpid first).mp hfirst
      rw [hfirst] at hplain
      simpa only [hgranted.2, true_or, and_true] using hplain
  | error e =>
      have hrefused : h.openProcess false (kReadOnlyAccess _) pid ≠ none := by
        intro hnone
        have hok := (h.Open_readOnly false hpid _).mpr ⟨rfl, hnone⟩
        rw [hfirst] at hok
        exact nomatch hok
      cases cfg.allow_debug_privilege with
      | false => simp only [hrefused, Bool.false_eq_true, ↓reduceIte, reduceCtorEq, false_and,
          or_false, and_false]
      | true => simpa only [hrefused, ↓reduceIte, true_and, false_or] using hdebug

/-- A handle is opened when nothing refuses and the system grants one. -/
theorem mem_InspectPid (cfg : InspectConfig) (pid : Pid)
    (handle : ReadOnlyProcessHandle h.platform) :
    handle ∈ (h.InspectPid cfg pid).2 ↔ handle = ⟨kReadOnlyAccess _, pid⟩ ∧ pid ≠ 0 ∧
      h.Grants cfg pid ∧ refusal h.QueryOwnToken (h.queryToken pid) = none := by
  unfold InspectPid QueryProcessToken
  by_cases hpid : pid = 0
  · simp [hpid]
  simp only [hpid, ↓reduceIte, ne_eq, not_false_eq_true, true_and]
  cases href : refusal h.QueryOwnToken (h.queryToken pid) with
  | some err => simp
  | none =>
      have hopen := @opened_ok h cfg pid hpid handle
      cases hgot : h.opened cfg pid with
      | error e =>
          rw [hgot] at hopen
          simp only [List.not_mem_nil, and_true, false_iff]
          exact fun hboth => nomatch hopen.mpr hboth
      | ok handle' =>
          rw [hgot, Except.ok.injEq] at hopen
          simp only [List.mem_singleton, and_true]
          exact eq_comm.trans hopen

theorem InspectPid_readOnly {cfg : InspectConfig} {pid : Pid}
    {handle : ReadOnlyProcessHandle h.platform} (hmem : handle ∈ (h.InspectPid cfg pid).2) :
    handle.granted &&& kWriteAccessBits _ = 0 := by
  rw [((h.mem_InspectPid cfg pid handle).mp hmem).1]
  exact readOnly_and_write _

end Host

/-! ## The wall fails closed -/

/-- The rank that is known of an operator. -/
def rankOf : Except PrivilegeError TokenSnapshot → ℤ
  | .ok self => IntegrityRank self.integrity
  | .error _ => -1

/-- The target is below the wall: nothing about it bars it, it is SYSTEM for an operator
known to be SYSTEM only, and it ranks no higher than what is known of the operator. -/
structure Cleared (self_tok : Except PrivilegeError TokenSnapshot) (target : TokenSnapshot) : Prop
    extends Unprotected target where
  system : target.system = true → ∃ self, self_tok = .ok self ∧ self.system = true
  rank : IntegrityRank target.integrity ≤ rankOf self_tok

/-- A handle of another process is opened only if the token of that process was obtained,
and is below the wall. -/
def Host.FailsClosed (h : Host) (cfg : InspectConfig) (pid : Pid) : Prop :=
  ∀ handle ∈ (h.InspectPid cfg pid).2, handle.pid ≠ h.own →
    ∃ target, h.QueryProcessToken pid = .ok target ∧ Cleared h.QueryOwnToken target

/-- What slips through the wall. -/
inductive Slips : Except PrivilegeError TokenSnapshot → Except PrivilegeError TokenSnapshot → Prop
  /-- The target's token was not obtained. -/
  | unseen (self_tok : Except PrivilegeError TokenSnapshot) (e : PrivilegeError) :
      Slips self_tok (.error e)
  /-- The operator's token was not obtained, and of the target's the image alone is looked at. -/
  | alone (e : PrivilegeError) (target : TokenSnapshot) : ImageNameDenied target.image = false →
      (target.trusted_installer = true ∨ target.identity = .TrustedInstaller ∨
        target.protected_process = true ∨ target.system = true ∨ target.integrity ≠ .Unknown) →
      Slips (.error e) (.ok target)
  /-- The tokens name one process. -/
  | samePid (self target : TokenSnapshot) : SamePid self target → ¬ Cleared (.ok self) target →
      Slips (.ok self) (.ok target)
  /-- The operator's integrity is unknown, and the target's is known. -/
  | unranked (self target : TokenSnapshot) : Unprotected target →
      (target.system = true → self.system = true) → self.integrity = .Unknown →
      target.integrity ≠ .Unknown → Slips (.ok self) (.ok target)

theorem rank_unknown {i : Integrity} : IntegrityRank i ≤ -1 ↔ i = .Unknown := by
  cases i with
  | Unknown => exact iff_of_true (le_refl _) rfl
  | Low => exact iff_of_false (by decide) (fun h => nomatch h)
  | Medium => exact iff_of_false (by decide) (fun h => nomatch h)
  | High => exact iff_of_false (by decide) (fun h => nomatch h)
  | System => exact iff_of_false (by decide) (fun h => nomatch h)

theorem rank_known {i : Integrity} : 0 ≤ IntegrityRank i ↔ i ≠ .Unknown := by
  rw [ne_eq, ← rank_unknown]
  omega

/-- Nothing refuses a target that is not below the wall exactly when it slips through. -/
theorem slips_iff (self_tok tgt_tok : Except PrivilegeError TokenSnapshot) :
    Slips self_tok tgt_tok ↔ Host.refusal self_tok tgt_tok = none ∧
      ¬ ∃ target, tgt_tok = .ok target ∧ Cleared self_tok target := by
  cases tgt_tok with
  | error e =>
      refine iff_of_true (.unseen _ e) ⟨?_, by rintro ⟨target, htarget, _⟩; cases htarget⟩
      cases self_tok with
      | error e' => rfl
      | ok self => rfl
  | ok target =>
      have hcleared : (∃ target', (.ok target : Except PrivilegeError TokenSnapshot) = .ok target' ∧
          Cleared self_tok target') ↔ Cleared self_tok target := by
        constructor
        · rintro ⟨target', heq, hclear⟩
          cases heq
          exact hclear
        · exact fun hclear => ⟨target, rfl, hclear⟩
      rw [hcleared]
      cases self_tok with
      | error e =>
          have href : Host.refusal (.error e) (.ok target) = none ↔
              ImageNameDenied target.image = false := by
            show (if ImageNameDenied target.image = true then some _ else none) = none ↔ _
            cases ImageNameDenied target.image with
            | false => exact iff_of_true rfl rfl
            | true => exact iff_of_false (fun h => by cases h) (fun h => by cases h)
          rw [href]
          constructor
          · rintro (_ | ⟨_, _, himage, hbarred⟩)
            refine ⟨himage, fun hclear => ?_⟩
            rcases hbarred with hti | hid | hppl | hsys | hrank
            · exact absurd hti (by rw [hclear.installer]; exact Bool.false_ne_true)
            · exact hclear.identity hid
            · exact absurd hppl (by rw [hclear.protected_process]; exact Bool.false_ne_true)
            · obtain ⟨self, hself, _⟩ := hclear.system hsys
              cases hself
            · exact hrank (rank_unknown.mp hclear.rank)
          · rintro ⟨himage, hnot⟩
            refine .alone e target himage (Decidable.byContradiction fun hfree => hnot ?_)
            push Not at hfree
            obtain ⟨hti, hid, hppl, hsys, hrank⟩ := hfree
            exact ⟨⟨Bool.eq_false_of_not_eq_true hti, hid, Bool.eq_false_of_not_eq_true hppl,
              himage⟩, fun h => absurd h hsys, rank_unknown.mpr hrank⟩
      | ok self =>
          have href : Host.refusal (.ok self) (.ok target) = none ↔
              (AllowInspect self target).code = .Ok := by
            unfold Host.refusal
            by_cases hok : (AllowInspect self target).code = .Ok
            · simp only [hok, ne_eq, not_true_eq_false, ↓reduceIte]
            · simp only [hok, ne_eq, not_false_eq_true, ↓reduceIte, reduceCtorEq]
          rw [href, AllowInspect_ok]
          constructor
          · rintro (_ | _ | ⟨_, _, hsame, hnot⟩ | ⟨_, _, hfree, hsys, hself, htarget⟩)
            · exact ⟨.inl hsame, hnot⟩
            · have hrank : IntegrityRank self.integrity ≤ -1 := rank_unknown.mpr hself
              refine ⟨.inr ⟨hfree, hsys, fun h => by omega⟩, fun hclear => htarget ?_⟩
              exact rank_unknown.mp (le_trans hclear.rank hrank)
          · rintro ⟨hsame | ⟨hfree, hsys, hrank⟩, hnot⟩
            · exact .samePid self target hsame hnot
            · have hhigher : ¬ IntegrityRank target.integrity ≤ IntegrityRank self.integrity :=
                fun hle => hnot ⟨hfree, fun h => ⟨self, rfl, hsys h⟩, hle⟩
              have hself : self.integrity = .Unknown := by
                rw [← rank_unknown]
                by_contra hknown
                exact hhigher (hrank (by omega))
              refine .unranked self target hfree hsys hself (fun htarget => hhigher ?_)
              rw [hself, htarget]

/-- The wall fails closed unless the system grants a handle of another process, and that
process slips through. -/
theorem failsClosed_iff (h : Host) (cfg : InspectConfig) (pid : Pid) :
    h.FailsClosed cfg pid ↔
      ¬ (pid ≠ 0 ∧ pid ≠ h.own ∧ h.Grants cfg pid ∧ Slips h.QueryOwnToken (h.queryToken pid)) := by
  by_cases hpid : pid = 0
  · refine iff_of_true (fun handle hmem => ?_) (fun hslips => hslips.1 hpid)
    exact absurd hpid ((h.mem_InspectPid cfg pid handle).mp hmem).2.1
  have hquery : h.QueryProcessToken pid = h.queryToken pid := if_neg hpid
  unfold Host.FailsClosed
  rw [hquery]
  constructor
  · rintro hclosed ⟨_, hown, hgrants, hslips⟩
    obtain ⟨hpass, hnot⟩ := (slips_iff _ _).mp hslips
    have hmem := (h.mem_InspectPid cfg pid ⟨kReadOnlyAccess _, pid⟩).mpr ⟨rfl, hpid, hgrants, hpass⟩
    exact hnot (hclosed _ hmem hown)
  · intro hnone handle hmem hown
    obtain ⟨heq, _, hgrants, hpass⟩ := (h.mem_InspectPid cfg pid handle).mp hmem
    rw [heq] at hown
    by_contra hnot
    exact hnone ⟨hpid, hown, hgrants, (slips_iff _ _).mpr ⟨hpass, hnot⟩⟩

/-- A host that gives the token of a target to no one, and its handle to those who may debug. -/
def reluctant : Host where
  platform := .windows
  own := 100
  QueryOwnToken := .ok { pid := 100, integrity := .High, identity := .Admin }
  queryToken _ := .error ⟨.AccessDenied,
    "OpenProcessToken(TOKEN_QUERY) failed — no impersonation attempted"⟩
  openProcess debug _ _ :=
    if debug then none
    else some ⟨.AccessDenied, "OpenProcess(628, 0x1410) failed, GetLastError=5"⟩
  InspectHandle _ _ := .ok {}

def debugging : InspectConfig := { allow_debug_privilege := true }

/-- The token of the target was not obtained, and its handle is opened. -/
theorem opened_unseen : ¬ ∀ (h : Host) (cfg : InspectConfig) (pid : Pid), h.FailsClosed cfg pid := by
  intro hall
  have hmem : (⟨kReadOnlyAccess _, 628⟩ : ReadOnlyProcessHandle reluctant.platform) ∈
      (reluctant.InspectPid debugging 628).2 :=
    (reluctant.mem_InspectPid debugging 628 _).mpr ⟨rfl, by decide, .inr ⟨rfl, rfl⟩, rfl⟩
  obtain ⟨target, htarget, _⟩ := hall reluctant debugging 628 _ hmem (by decide)
  exact nomatch htarget

end Secdogie.Atlas.Wall
