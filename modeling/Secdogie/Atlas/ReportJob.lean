/-
# `Secdogie.Atlas.ReportJob` — what a report job says of its stages

A job runs one stage for each member of its chain, and counts.  A stage is a
matter of its member alone (`stageFor`), and what the job reports is read off
the counters.

The job is to fail only if nothing passed and there is no last-known snapshot.
A source that is listed and cannot be read is not answered by the snapshot,
and the job fails with the snapshot at hand; it fails as well if there is no
source and no chain is known.  `reports_iff_answered` says when it does not.
-/
import Secdogie.Atlas.ProcessChain

namespace Secdogie.Atlas

/-- The stage of a member, whatever the others are. -/
def stageFor (j : JobInput) (m : ChainMember) : JobStage :=
  match findPid j.all m.pid with
  | none =>
      let a := j.inspect m 1
      { stageOf m with attempts := a.attempts, stale := a.stale, status := .Isolated,
                       detail := if a.stale then a.detail else goneDetail }
  | some live =>
      if ¬ m.readable ∨ ¬ live.readable then
        { stageOf m with status := .Isolated, detail := unreadableDetail }
      else
        let a := j.inspect m 3
        let stage := { stageOf m with attempts := a.attempts, stale := a.stale }
        if a.ok then { stage with status := .Passed, detail := utf8 "inspect ok" }
        else if a.stale then { stage with status := .Isolated, detail := a.detail }
        else { stage with status := .Isolated,
                          detail := if a.detail = [] then failedDetail else a.detail }

/-- A member is inspected. -/
def Passes (j : JobInput) (m : ChainMember) : Prop :=
  m.readable = true ∧ ∃ live, findPid j.all m.pid = some live ∧ live.readable = true ∧
    ¬ Fails (j.dump m.pid (stageFind m)) m.pid 3

def passedStage (s : JobStage) : Bool := decide (s.status = .Passed)

/-- What one stage adds. -/
structure Counted (r r' : JobRun) (stage : JobStage) : Prop where
  stages : r'.stages = r.stages ++ [stage]
  passed : r'.passed = r.passed + if passedStage stage then 1 else 0
  isolated : r'.isolated = r.isolated + if passedStage stage then 0 else 1
  stale_ok : r'.stale_ok = r.stale_ok + if stage.stale then 1 else 0

section

variable (j : JobInput) (m : ChainMember)

theorem inspect_ok_not_stale {retries : ℕ} (hok : (j.inspect m retries).ok = true) :
    (j.inspect m retries).stale = false := by
  by_cases hfails : Fails (j.dump m.pid (stageFind m)) m.pid retries
  · rw [(inspect_failed j m hfails).1] at hok
    exact nomatch hok
  · exact (inspect_fresh j m hfails).2.1

/-- The step lemma: the stage is the member's. -/
theorem runStage_counted (r : JobRun) : Counted r (runStage j r m) (stageFor j m) := by
  rw [runStage, stageFor]
  cases hlive : findPid j.all m.pid with
  | none =>
      refine ⟨rfl, rfl, rfl, ?_⟩
      dsimp only [runGone]
      by_cases hstale : (j.inspect m 1).stale = true
      · rw [if_pos hstale, if_pos hstale]
      · rw [if_neg hstale, if_neg hstale, Nat.add_zero]
  | some live =>
      dsimp only
      by_cases hun : ¬ m.readable ∨ ¬ live.readable
      · rw [if_pos hun, if_pos hun]
        exact ⟨rfl, rfl, rfl, rfl⟩
      · rw [if_neg hun, if_neg hun, runLive]
        dsimp only
        cases hok : (j.inspect m 3).ok with
        | true =>
            rw [if_pos rfl, if_pos rfl]
            refine ⟨rfl, rfl, rfl, ?_⟩
            dsimp only
            rw [inspect_ok_not_stale j m hok]
            rfl
        | false =>
            rw [if_neg Bool.false_ne_true, if_neg Bool.false_ne_true]
            cases hstale : (j.inspect m 3).stale with
            | true => exact ⟨rfl, rfl, rfl, rfl⟩
            | false => exact ⟨rfl, rfl, rfl, rfl⟩

/-- By induction on the chain: one stage for each member, in its order, and all of them counted. -/
theorem runStages_counted : ∀ (chain : List ChainMember) (r : JobRun),
    (chain.foldl (runStage j) r).stages = r.stages ++ chain.map (stageFor j) ∧
    (chain.foldl (runStage j) r).passed =
      r.passed + (chain.map (stageFor j)).countP passedStage ∧
    (chain.foldl (runStage j) r).isolated =
      r.isolated + (chain.map (stageFor j)).countP (fun s => !passedStage s) ∧
    (chain.foldl (runStage j) r).stale_ok =
      r.stale_ok + (chain.map (stageFor j)).countP JobStage.stale
  | [], r => ⟨(List.append_nil _).symm, rfl, rfl, rfl⟩
  | m :: chain, r => by
      obtain ⟨hstages, hpassed, hisolated, hstale⟩ := runStage_counted j m r
      obtain ⟨ihstages, ihpassed, ihisolated, ihstale⟩ := runStages_counted chain (runStage j r m)
      rw [List.foldl_cons, List.map_cons, List.countP_cons, List.countP_cons, List.countP_cons]
      refine ⟨?_, ?_, ?_, ?_⟩
      · rw [ihstages, hstages, List.append_assoc]
        rfl
      · rw [ihpassed, hpassed, Nat.add_assoc, Nat.add_comm (List.countP _ _)]
      · rw [ihisolated, hisolated, Nat.add_assoc, Nat.add_comm (List.countP _ _)]
        cases passedStage (stageFor j m) <;> rfl
      · rw [ihstale, hstale, Nat.add_assoc, Nat.add_comm (List.countP _ _)]

theorem passedStage_iff : passedStage (stageFor j m) = true ↔ Passes j m := by
  rw [passedStage, decide_eq_true_iff, stageFor]
  cases hlive : findPid j.all m.pid with
  | none =>
      refine ⟨nofun, ?_⟩
      rintro ⟨-, live, heq, -⟩
      exact nomatch hlive.symm.trans heq
  | some live =>
      dsimp only
      by_cases hun : ¬ m.readable ∨ ¬ live.readable
      · rw [if_pos hun]
        refine ⟨nofun, ?_⟩
        rintro ⟨hm, live', heq, hl, -⟩
        cases hlive.symm.trans heq
        rcases hun with hun | hun
        · exact absurd hm hun
        · exact absurd hl hun
      · rw [if_neg hun]
        rw [not_or, not_not, not_not] at hun
        by_cases hfails : Fails (j.dump m.pid (stageFind m)) m.pid 3
        · rw [if_neg (by rw [(inspect_failed j m hfails).1]; exact Bool.false_ne_true)]
          refine ⟨fun h => ?_, ?_⟩
          · split_ifs at h
          · rintro ⟨-, live', -, -, hnot⟩
            exact absurd hfails hnot
        · rw [if_pos (inspect_fresh j m hfails).1]
          exact ⟨fun _ => ⟨hun.1, live, hlive, hun.2, hfails⟩, fun _ => rfl⟩

/-- An inspection is marked stale if it fails and there is a snapshot for it. -/
theorem inspect_stale_iff {retries : ℕ} : (j.inspect m retries).stale = true ↔
    Fails (j.dump m.pid (stageFind m)) m.pid retries ∧ m.rel = .Self ∧ j.last_known ≠ none := by
  by_cases hfails : Fails (j.dump m.pid (stageFind m)) m.pid retries
  · rw [(inspect_failed j m hfails).2.1, stageCache]
    by_cases hself : m.rel = .Self
    · rw [if_pos ((roleOf_source m).mpr hself), Option.isSome_iff_ne_none]
      exact ⟨fun h => ⟨hfails, hself, h⟩, fun h => h.2.2⟩
    · rw [if_neg (fun h => hself ((roleOf_source m).mp h))]
      exact ⟨(by rintro ⟨⟩), fun h => absurd h.2.1 hself⟩
  · rw [(inspect_fresh j m hfails).2.1]
    exact ⟨(by rintro ⟨⟩), fun h => absurd h.1 hfails⟩

theorem stale_iff : (stageFor j m).stale = true ↔ FallsBack j m ∧ j.last_known ≠ none := by
  rw [stageFor, FallsBack]
  cases hlive : findPid j.all m.pid with
  | none =>
      dsimp only
      rw [inspect_stale_iff]
      exact ⟨fun h => ⟨⟨h.2.1, h.1⟩, h.2.2⟩, fun h => ⟨h.1.2, h.1.1, h.2⟩⟩
  | some live =>
      dsimp only
      by_cases hun : ¬ m.readable ∨ ¬ live.readable
      · rw [if_pos hun]
        refine ⟨nofun, ?_⟩
        rintro ⟨⟨-, hm, hl, -⟩, -⟩
        rcases hun with hun | hun
        · exact absurd hm hun
        · exact absurd hl hun
      · rw [if_neg hun]
        rw [not_or, not_not, not_not] at hun
        have hstale : ∀ {stage : JobStage}, stage.stale = (j.inspect m 3).stale →
            (stage.stale = true ↔ (m.rel = .Self ∧ m.readable = true ∧ live.readable = true ∧
              Fails (j.dump m.pid (stageFind m)) m.pid 3) ∧ j.last_known ≠ none) := by
          intro stage heq
          rw [heq, inspect_stale_iff]
          exact ⟨fun h => ⟨⟨h.2.1, hun.1, hun.2, h.1⟩, h.2.2⟩,
            fun h => ⟨h.1.2.2.2, h.1.1, h.2⟩⟩
        by_cases hok : (j.inspect m 3).ok = true
        · rw [if_pos hok]
          exact hstale rfl
        · rw [if_neg hok]
          by_cases hmark : (j.inspect m 3).stale = true
          · rw [if_pos hmark]
            exact hstale rfl
          · rw [if_neg hmark]
            exact hstale rfl

end

/-! ## What the job reports -/

/-- The chain that a job runs over; empty if there is none. -/
def chainOf (j : JobInput) (source_pid : Pid) (linked : List Pid) (last_chain : List ChainMember) :
    List ChainMember :=
  (jobChain source_pid linked j.all last_chain).elim [] Prod.snd

/-- What is said of a job. -/
structure Reported (j : JobInput) (source_pid : Pid) (linked : List Pid)
    (last_chain : List ChainMember) : Prop where
  /-- one stage for each member, in its order -/
  stages : (runReportJob j source_pid linked last_chain).stages.map JobStage.pid =
    (chainOf j source_pid linked last_chain).map ChainMember.pid
  /-- what the inspections of the others give makes no difference -/
  apart : ∀ (dump : Pid → Wide → ℕ → Dump) (i : ℕ) m,
    (chainOf j source_pid linked last_chain)[i]? = some m → dump m.pid = j.dump m.pid →
    (runReportJob { j with dump := dump } source_pid linked last_chain).stages[i]? =
      (runReportJob j source_pid linked last_chain).stages[i]?
  passed : (runReportJob j source_pid linked last_chain).status = ascii "passed" ↔
    ∀ s ∈ (runReportJob j source_pid linked last_chain).stages, s.status = .Passed
  failed : (runReportJob j source_pid linked last_chain).status = ascii "failed" ↔
    (∀ s ∈ (runReportJob j source_pid linked last_chain).stages, s.status ≠ .Passed) ∧
      j.last_known = none

/-- There is a chain, and where there is a snapshot some member passes or is answered by it. -/
def Answered (j : JobInput) (source_pid : Pid) (linked : List Pid) (last_chain : List ChainMember) :
    Prop :=
  jobChain source_pid linked j.all last_chain ≠ none ∧
    (j.last_known ≠ none →
      ∃ m ∈ chainOf j source_pid linked last_chain, Passes j m ∨ FallsBack j m)

theorem findPid_of_mem {all : List ListedProcess} {p : ListedProcess} (h : p ∈ all) :
    findPid all p.pid ≠ none := by
  intro hnone
  exact List.find?_eq_none.mp hnone p h (decide_eq_true rfl)

theorem jobChain_ne_nil {source_pid pid : Pid} {linked : List Pid} {all : List ListedProcess}
    {last_chain chain : List ChainMember}
    (h : jobChain source_pid linked all last_chain = some (pid, chain)) : chain ≠ [] := by
  unfold jobChain at h
  split at h
  · next src hsrc =>
      obtain ⟨-, rfl⟩ := Prod.mk.inj (Option.some.inj h)
      have hmem : src ∈ all := by
        rcases Option.or_eq_some_iff.mp hsrc with hfound | ⟨-, hother⟩
        · exact List.mem_of_find?_eq_some hfound
        · exact List.mem_of_find?_eq_some hother
      rcases buildChain_cases src.pid all linked with ⟨hnone, -⟩ | ⟨root, tail, -, heq, -⟩
      · exact absurd hnone (findPid_of_mem hmem)
      · obtain ⟨more, hmerge, -⟩ := mergeLastKnown_cons (memberOf root .Self) tail last_chain
        rw [heq, hmerge]
        exact List.cons_ne_nil _ _
  · split at h
    · exact nomatch h
    · next first rest =>
        obtain ⟨-, rfl⟩ := Prod.mk.inj (Option.some.inj h)
        obtain ⟨more, hmerge, -⟩ :=
          mergeLastKnown_cons (gone first) (rest.map gone) (first :: rest)
        rw [List.map_cons, hmerge]
        exact List.cons_ne_nil _ _

theorem stageFor_pid (j : JobInput) (m : ChainMember) : (stageFor j m).pid = m.pid := by
  rw [stageFor]
  split
  · rfl
  · dsimp only
    split_ifs
    · rfl
    · rfl
    · rfl
    · rfl
    · rfl

/-- The stage depends on what the inspections of its own process give. -/
theorem stageFor_congr (j : JobInput) {dump : Pid → Wide → ℕ → Dump} {m : ChainMember}
    (h : dump m.pid = j.dump m.pid) : stageFor { j with dump := dump } m = stageFor j m := by
  have hinspect : ∀ retries, ({ j with dump := dump } : JobInput).inspect m retries =
      j.inspect m retries := by
    intro retries
    rw [JobInput.inspect, JobInput.inspect]
    dsimp only
    rw [h]
  rw [stageFor, stageFor]
  simp only [hinspect]

theorem jobStatus_passed (r : JobRun) :
    jobStatus r = ascii "passed" ↔ 0 < r.passed ∧ r.isolated = 0 := by
  rw [jobStatus]
  split_ifs with hpassed hisolated
  · exact iff_of_true rfl hpassed
  · exact iff_of_false (by decide) hpassed
  · exact iff_of_false (by decide) hpassed

theorem jobStatus_failed (r : JobRun) :
    jobStatus r = ascii "failed" ↔ r.passed = 0 ∧ r.stale_ok = 0 := by
  rw [jobStatus]
  split_ifs with hpassed hisolated
  · exact iff_of_false (by decide) fun h => absurd h.1 hpassed.1.ne'
  · exact iff_of_false (by decide) fun h => by omega
  · exact iff_of_true rfl (by omega)

theorem all_passed_iff {stages : List JobStage} (hne : stages ≠ []) :
    0 < stages.countP passedStage ∧ stages.countP (fun s => !passedStage s) = 0 ↔
      ∀ s ∈ stages, s.status = .Passed := by
  rw [List.countP_pos_iff, List.countP_eq_zero]
  constructor
  · rintro ⟨-, hall⟩ s hs
    have hs' := hall s hs
    rw [Bool.not_eq_true', Bool.not_eq_false] at hs'
    exact of_decide_eq_true hs'
  · intro hall
    obtain ⟨s, hs⟩ := List.exists_mem_of_ne_nil stages hne
    refine ⟨⟨s, hs, decide_eq_true (hall s hs)⟩, fun s hs => ?_⟩
    rw [Bool.not_eq_true', Bool.not_eq_false]
    exact decide_eq_true (hall s hs)

/-- A job with a chain. -/
theorem runReportJob_eq {j : JobInput} {source_pid pid : Pid} {linked : List Pid}
    {last_chain chain : List ChainMember}
    (h : jobChain source_pid linked j.all last_chain = some (pid, chain)) :
    runReportJob j source_pid linked last_chain =
      { name := ascii "report", status := jobStatus (chain.foldl (runStage j) {}),
        stages := chain.map (stageFor j), source_pid := pid,
        last_snap := (chain.foldl (runStage j) {}).last_snap } := by
  rw [runReportJob, h]
  exact congrArg (fun stages => JobResult.mk _ _ stages _ _) (runStages_counted j chain {}).1

/-- **A job reports what its stages came to** just when it has a chain and, with a snapshot at
hand, some member passes or is answered by it. -/
theorem reports_iff_answered (j : JobInput) (source_pid : Pid) (linked : List Pid)
    (last_chain : List ChainMember) :
    Reported j source_pid linked last_chain ↔ Answered j source_pid linked last_chain := by
  cases hchain : jobChain source_pid linked j.all last_chain with
  | none =>
      refine iff_of_false (fun h => ?_) fun h => h.1 hchain
      have hstages := h.stages
      rw [chainOf, hchain, runReportJob, hchain] at hstages
      cases hstages
  | some found =>
      obtain ⟨pid, chain⟩ := found
      have hchainOf : chainOf j source_pid linked last_chain = chain := by
        rw [chainOf, hchain]
        rfl
      obtain ⟨-, hpassed, hisolated, hstale⟩ := runStages_counted j chain {}
      have hjob := runReportJob_eq hchain
      have hne : chain.map (stageFor j) ≠ [] :=
        fun hnil => jobChain_ne_nil hchain (List.map_eq_nil_iff.mp hnil)
      have hpass : (∀ s ∈ chain.map (stageFor j), s.status ≠ .Passed) ↔
          (chain.foldl (runStage j) {}).passed = 0 := by
        rw [hpassed, Nat.zero_add, List.countP_eq_zero]
        exact forall₂_congr fun s _ => not_congr decide_eq_true_iff.symm
      have hanswered : (chain.foldl (runStage j) {}).passed = 0 ∧
          (chain.foldl (runStage j) {}).stale_ok = 0 ↔
          ∀ m ∈ chain, ¬ Passes j m ∧ ¬ (FallsBack j m ∧ j.last_known ≠ none) := by
        rw [hpassed, hstale, Nat.zero_add, Nat.zero_add, List.countP_map, List.countP_map,
          List.countP_eq_zero, List.countP_eq_zero, ← forall₂_and]
        refine forall₂_congr fun m _ => and_congr ?_ ?_
        · exact not_congr (passedStage_iff j m)
        · exact not_congr (stale_iff j m)
      have hpasses : (∀ s ∈ chain.map (stageFor j), s.status ≠ .Passed) ↔
          ∀ m ∈ chain, ¬ Passes j m := by
        rw [List.forall_mem_map]
        refine forall₂_congr fun m _ => not_congr ?_
        rw [← passedStage_iff, passedStage, decide_eq_true_iff]
      have hlast : (∀ m ∈ chain, ¬ Passes j m ∧ ¬ (FallsBack j m ∧ j.last_known ≠ none)) ↔
          (∀ m ∈ chain, ¬ Passes j m) ∧ (j.last_known ≠ none → ∀ m ∈ chain, ¬ FallsBack j m) := by
        rw [forall₂_and]
        refine and_congr_right fun _ => ?_
        exact ⟨fun h hknown m hm hfall => h m hm ⟨hfall, hknown⟩,
          fun h m hm hand => h hand.2 m hm hand.1⟩
      constructor
      · intro h
        refine ⟨(fun hnone => by cases hchain.symm.trans hnone), fun hknown => ?_⟩
        rw [hchainOf]
        by_contra hnone
        have hno : ∀ m ∈ chain, ¬ Passes j m ∧ ¬ FallsBack j m := by
          intro m hm
          exact ⟨fun hpasses => hnone ⟨m, hm, .inl hpasses⟩, fun hfall => hnone ⟨m, hm, .inr hfall⟩⟩
        have hfailed := h.failed
        rw [hjob] at hfailed
        dsimp only at hfailed
        rw [jobStatus_failed, hanswered, hlast] at hfailed
        exact hknown (hfailed.mp ⟨fun m hm => (hno m hm).1, fun _ m hm => (hno m hm).2⟩).2
      · rintro ⟨-, hknown⟩
        rw [hchainOf] at hknown
        refine ⟨?_, fun dump i m hi hdump => ?_, ?_, ?_⟩
        · rw [hjob, hchainOf, List.map_map]
          exact List.map_congr_left fun m _ => stageFor_pid j m
        · have hjob' := runReportJob_eq (j := { j with dump := dump }) hchain
          rw [hchainOf] at hi
          rw [hjob, hjob']
          dsimp only
          rw [List.getElem?_map, List.getElem?_map, hi, Option.map_some, Option.map_some,
            stageFor_congr j hdump]
        · rw [hjob]
          dsimp only
          rw [jobStatus_passed, hpassed, hisolated, Nat.zero_add, Nat.zero_add]
          exact all_passed_iff hne
        · rw [hjob]
          dsimp only
          rw [jobStatus_failed, hanswered, hlast, hpasses]
          refine and_congr_right fun hnone => ?_
          constructor
          · intro hfall
            by_contra hsome
            obtain ⟨m, hm, hpasses | hfalls⟩ := hknown hsome
            · exact hnone m hm hpasses
            · exact hfall hsome m hm hfalls
          · exact fun hlast hsome => absurd hlast hsome

/-- The source is listed and cannot be read; a snapshot of it is kept. -/
def unreadableSource : JobInput where
  command := 2
  all := [{ pid := 7, image := ascii "atlas_target", readable := false }]
  dump := fun _ _ _ => .error []
  last_known := some ⟨7, [], none, [], 1⟩

/-- The job fails with the snapshot at hand. -/
theorem failed_with_snapshot :
    (runReportJob unreadableSource 7 [] []).status = ascii "failed" ∧
      unreadableSource.last_known ≠ none ∧ ¬ Reported unreadableSource 7 [] [] := by
  have hstatus : (runReportJob unreadableSource 7 [] []).status = ascii "failed" := by decide
  refine ⟨hstatus, nofun, fun h => ?_⟩
  exact nomatch (h.failed.mp hstatus).2

end Secdogie.Atlas
