/-
# `Secdogie.Dialogue.ProbeLedger` — the questions an agent has asked

A probe is open until it is answered or expires, and then it stays so.  It is
answered by a clarification that comes while it is open and before its expiry
(`resolve_eq_some`); what comes later changes nothing (`Kept`).
-/
import Secdogie.Citadel.ActionGate
import Secdogie.Dialogue.Protocol
import Secdogie.Lib.OrderedDict

namespace Secdogie.Dialogue

open Secdogie.Citadel (isBlank)

inductive ProbeStatus where
  | opened | answered | expired
deriving DecidableEq

structure Probe where
  probe_id : String
  question : String
  options : List String
  gate_finding : String
  expires_at : ℚ

structure Resolution where
  probe_id : String
  answer : String
  /-- the DID that signed the clarification -/
  answered_by : String
  answered_at : ℚ

/-- The agent's open questions; `none` for a status is `UNKNOWN`. -/
structure ProbeLedger where
  ttl : ℚ := 300
  probes : OrderedDict String Probe := .empty
  statuses : OrderedDict String ProbeStatus := .empty
  answers : OrderedDict String Resolution := .empty

namespace ProbeLedger

/-- `open`: the ledger, and the packet to send unless it raises. -/
def ask (l : ProbeLedger) (pid question : String) (options : List String) (gate_finding : String)
    (now : ℚ) (ttl : Option ℚ) : ProbeLedger × Option DialoguePacket :=
  match l.probes.get pid with
  | some _ => (l, none)
  | none =>
      ({ l with
          probes := l.probes.set pid
            { probe_id := pid, question, options, gate_finding, expires_at := now + ttl.getD l.ttl }
          statuses := l.statuses.set pid .opened },
        let packet : DialoguePacket :=
          { probe_id := pid, dialogue_type := .socratic_question, content := question,
            in_reply_to := "", suggested_options := options, gate_finding }
        if PostInit.post_init packet = none then some packet else none)

/-- `resolve`; an open probe without a record would be a `KeyError`. -/
def resolve (l : ProbeLedger) (pkt : DialoguePacket) (answered_by : String) (t : ℚ) :
    ProbeLedger × Option Resolution :=
  if pkt.dialogue_type ≠ .user_clarification ∨ isBlank pkt.content then (l, none)
  else if l.statuses.get pkt.in_reply_to ≠ some .opened then (l, none)
  else
    match l.probes.get pkt.in_reply_to with
    | none => (l, none)
    | some p =>
        if p.expires_at ≤ t then
          ({ l with statuses := l.statuses.set pkt.in_reply_to .expired }, none)
        else
          let res : Resolution :=
            { probe_id := pkt.in_reply_to, answer := pkt.content, answered_by, answered_at := t }
          ({ l with statuses := l.statuses.set pkt.in_reply_to .answered
                    answers := l.answers.set pkt.in_reply_to res }, some res)

/-- `expire`, without the ids; `⊤` is `inf`. -/
def expire (l : ProbeLedger) (t : WithTop ℚ) : ProbeLedger :=
  { l with
    statuses := l.statuses.mapValues fun pid st =>
      if st = .opened ∧ ∃ p ∈ l.probes.get pid, (p.expires_at : WithTop ℚ) ≤ t then .expired
      else st }

/-- `wait`, when the thread looks: the ledger and what it returns, `none` while it waits on. -/
def look (l : ProbeLedger) (pid : String) (late : Bool) : Option (ProbeLedger × Option Resolution) :=
  if l.statuses.get pid = some .opened then
    if late then some ({ l with statuses := l.statuses.set pid .expired }, l.answers.get pid)
    else none
  else some (l, l.answers.get pid)

/-! ## What is settled stays -/

/-- The probe is not open any more. -/
def Settled (l : ProbeLedger) (pid : String) : Prop :=
  ∃ st, l.statuses.get pid = some st ∧ st ≠ .opened

/-- The ledger has a record of every probe with a status. -/
def Recorded (l : ProbeLedger) : Prop :=
  ∀ pid st, l.statuses.get pid = some st → ∃ p, l.probes.get pid = some p

/-- A step of the ledger: what was settled has the status and the answer that it had. -/
structure Kept (l l' : ProbeLedger) : Prop where
  status : ∀ pid, Settled l pid → l'.statuses.get pid = l.statuses.get pid
  answer : ∀ pid, Settled l pid → l'.answers.get pid = l.answers.get pid

variable {l : ProbeLedger} {pkt : DialoguePacket} {answered_by pid : String} {t : ℚ}

theorem Kept.refl : Kept l l := ⟨fun _ _ => rfl, fun _ _ => rfl⟩

theorem Kept.settled {l' : ProbeLedger} (h : Kept l l') (hs : Settled l pid) : Settled l' pid := by
  obtain ⟨st, hst, hne⟩ := hs
  exact ⟨st, (h.status pid ⟨st, hst, hne⟩).trans hst, hne⟩

theorem Kept.trans {l' l'' : ProbeLedger} (h : Kept l l') (h' : Kept l' l'') : Kept l l'' :=
  ⟨fun pid hs => (h'.status pid (h.settled hs)).trans (h.status pid hs),
    fun pid hs => (h'.answer pid (h.settled hs)).trans (h.answer pid hs)⟩

/-- A clarification is taken for a probe that is open, and not yet past its expiry. -/
theorem resolve_eq_some {res : Resolution} (h : (l.resolve pkt answered_by t).2 = some res) :
    l.statuses.get pkt.in_reply_to = some .opened ∧
      (∃ p, l.probes.get pkt.in_reply_to = some p ∧ t < p.expires_at) ∧
      res = { probe_id := pkt.in_reply_to, answer := pkt.content, answered_by, answered_at := t } ∧
      Settled (l.resolve pkt answered_by t).1 pkt.in_reply_to := by
  rw [resolve] at h ⊢
  by_cases hpacket : pkt.dialogue_type ≠ .user_clarification ∨ isBlank pkt.content
  · rw [if_pos hpacket] at h
    exact nomatch h
  rw [if_neg hpacket] at h ⊢
  by_cases hstatus : l.statuses.get pkt.in_reply_to ≠ some .opened
  · rw [if_pos hstatus] at h
    exact nomatch h
  rw [if_neg hstatus] at h ⊢
  cases hprobe : l.probes.get pkt.in_reply_to with
  | none =>
      rw [hprobe] at h
      exact nomatch h
  | some p =>
      rw [hprobe] at h
      dsimp only at h ⊢
      by_cases hlate : p.expires_at ≤ t
      · rw [if_pos hlate] at h
        exact nomatch h
      · rw [if_neg hlate] at h ⊢
        refine ⟨not_not.mp hstatus, ⟨p, rfl, not_le.mp hlate⟩, (Option.some.inj h).symm, .answered, ?_, ?_⟩
        · rw [OrderedDict.get_set, if_pos rfl]
        · exact fun heq => nomatch heq

/-- A status that is written over an open one. -/
theorem kept_set {st : ProbeStatus} {answers : OrderedDict String Resolution}
    (hopen : l.statuses.get pid = some .opened)
    (hanswers : ∀ pid', pid' ≠ pid → answers.get pid' = l.answers.get pid') :
    Kept l { l with statuses := l.statuses.set pid st, answers } := by
  have hne : ∀ pid', Settled l pid' → pid' ≠ pid := by
    rintro pid' ⟨st', hst', hnot⟩ rfl
    exact hnot (Option.some.inj (hst'.symm.trans hopen))
  refine ⟨fun pid' hs => ?_, fun pid' hs => hanswers pid' (hne pid' hs)⟩
  rw [OrderedDict.get_set, if_neg (hne pid' hs)]

theorem kept_resolve : Kept l (l.resolve pkt answered_by t).1 := by
  rw [resolve]
  by_cases hpacket : pkt.dialogue_type ≠ .user_clarification ∨ isBlank pkt.content
  · rw [if_pos hpacket]
    exact .refl
  rw [if_neg hpacket]
  by_cases hstatus : l.statuses.get pkt.in_reply_to ≠ some .opened
  · rw [if_pos hstatus]
    exact .refl
  rw [if_neg hstatus]
  cases l.probes.get pkt.in_reply_to with
  | none => exact .refl
  | some p =>
      dsimp only
      split_ifs
      · exact kept_set (not_not.mp hstatus) fun _ _ => rfl
      · refine kept_set (not_not.mp hstatus) fun pid' hne => ?_
        rw [OrderedDict.get_set, if_neg hne]

theorem kept_expire {now : WithTop ℚ} : Kept l (l.expire now) := by
  refine ⟨fun pid ⟨st, hst, hne⟩ => ?_, fun _ _ => rfl⟩
  rw [expire, OrderedDict.get_mapValues, hst, Option.map_some, if_neg fun h => hne h.1]

theorem kept_look {late : Bool} {r : ProbeLedger × Option Resolution}
    (h : l.look pid late = some r) : Kept l r.1 := by
  rw [look] at h
  split_ifs at h with hopen
  · exact Option.some.inj h ▸ kept_set hopen fun _ _ => rfl
  · exact Option.some.inj h ▸ .refl

theorem kept_ask (hl : Recorded l) {question gate_finding : String} {options : List String}
    {ttl : Option ℚ} : Kept l (l.ask pid question options gate_finding t ttl).1 := by
  rw [ask]
  cases hprobe : l.probes.get pid with
  | some p => exact .refl
  | none =>
      refine ⟨fun pid' ⟨st, hst, _⟩ => ?_, fun _ _ => rfl⟩
      have hne : pid' ≠ pid := by
        rintro rfl
        obtain ⟨p, hp⟩ := hl pid' st hst
        exact nomatch hprobe.symm.trans hp
      rw [OrderedDict.get_set, if_neg hne]

end ProbeLedger

end Secdogie.Dialogue
