/-
# `Secdogie.Atlas.Chains` — the chains that a terminal reports

`chain`, `link` and `job` report a chain: what is related to the root among the
processes listed (`buildChain`), and after it what the last chain still knows
(`mergeLastKnown`).  What went before is kept beside the run (`Past`): the chains
reported, each with its root, and the processes that were ever linked.

The first pass is right in every report.  The second is to put back the members
that vanished, and asks neither whether they did, nor whose chain they were on,
nor whether they are linked still.  `chains_iff` says when that does not show.
-/
import Secdogie.Atlas.MctCommand

namespace Secdogie.Atlas

/-! ## The chain of the processes that are listed -/

theorem hasPid_iff {chain : List ChainMember} {pid : Pid} :
    hasPid chain pid = true ↔ pid ∈ chain.map (·.pid) := by
  simp [hasPid]

theorem relation_not_inspector {root p : ListedProcess} {linked : List Pid}
    (h : relation root linked p ≠ none) : isInspectorName p.image = false := by
  by_contra hinspector
  rw [Bool.not_eq_false] at hinspector
  exact h (by simp only [relation, hinspector, if_true])

section

variable (root : ListedProcess) (linked : List Pid)

/-- A process that `push` puts on the chain, if its pid is not on it. -/
def Pushed (p : ListedProcess) : Prop := p.pid ≠ root.pid ∧ relation root linked p ≠ none

/-- What `push` does. -/
theorem push_cases (out : List ChainMember) (p : ListedProcess) :
    (push root linked out p = out ∧ (Pushed root linked p → p.pid ∈ out.map (·.pid))) ∨
      ∃ rel, push root linked out p = out ++ [memberOf p rel] ∧ Pushed root linked p ∧
        p.pid ∉ out.map (·.pid) := by
  rw [push]
  split
  · next hroot => exact .inl ⟨rfl, fun h => absurd hroot h.1⟩
  · next hroot =>
      cases hrel : relation root linked p with
      | none => exact .inl ⟨rfl, fun h => absurd hrel h.2⟩
      | some rel =>
          dsimp only
          split
          · next hhas => exact .inl ⟨rfl, fun _ => hasPid_iff.mp hhas⟩
          · next hhas =>
              refine .inr ⟨rel, rfl, ⟨hroot, ?_⟩, fun hmem => hhas (hasPid_iff.mpr hmem)⟩
              rw [hrel]
              exact Option.some_ne_none rel

theorem foldl_push_nodup (all : List ListedProcess) : ∀ out : List ChainMember,
    (out.map (·.pid)).Nodup → ((all.foldl (push root linked) out).map (·.pid)).Nodup := by
  induction all with
  | nil => exact fun out h => h
  | cons p all ih =>
      intro out h
      refine ih _ ?_
      rcases push_cases root linked out p with ⟨heq, -⟩ | ⟨rel, heq, -, hnew⟩
      · rwa [heq]
      · rw [heq, List.map_append]
        exact h.append (List.nodup_singleton _) (List.disjoint_singleton.mpr hnew)

theorem foldl_push_pids (all : List ListedProcess) (pid : Pid) : ∀ out : List ChainMember,
    pid ∈ (all.foldl (push root linked) out).map (·.pid) ↔
      pid ∈ out.map (·.pid) ∨ ∃ p ∈ all, p.pid = pid ∧ Pushed root linked p := by
  induction all with
  | nil => exact fun out => ⟨.inl, fun h => h.elim id fun ⟨p, hp, _⟩ => nomatch hp⟩
  | cons p all ih =>
      intro out
      rw [List.foldl_cons, ih, List.exists_mem_cons_iff, ← or_assoc]
      refine or_congr_left ?_
      rcases push_cases root linked out p with ⟨heq, hold⟩ | ⟨rel, heq, hpushed, -⟩
      · rw [heq]
        refine ⟨.inl, ?_⟩
        rintro (h | ⟨rfl, hpushed⟩)
        · exact h
        · exact hold hpushed
      · rw [heq, List.map_append, List.mem_append]
        refine or_congr_right ?_
        constructor
        · intro h
          exact ⟨(List.mem_singleton.mp h).symm, hpushed⟩
        · rintro ⟨rfl, -⟩
          exact List.mem_singleton_self p.pid

theorem foldl_push_images (all : List ListedProcess) : ∀ out : List ChainMember,
    ∀ m ∈ all.foldl (push root linked) out, m ∈ out ∨ isInspectorName m.image = false := by
  induction all with
  | nil => exact fun out m hm => .inl hm
  | cons p all ih =>
      intro out m hm
      rcases ih _ m hm with hm | hm
      · rcases push_cases root linked out p with ⟨heq, -⟩ | ⟨rel, heq, hpushed, -⟩
        · exact .inl (heq ▸ hm)
        · rw [heq] at hm
          rcases List.mem_append.mp hm with hm | hm
          · exact .inl hm
          · obtain rfl := List.mem_singleton.mp hm
            exact .inr (relation_not_inspector hpushed.2)
      · exact .inr hm

end

section

variable {root_pid : Pid} {all : List ListedProcess} {root : ListedProcess}

theorem buildChain_eq (linked : List Pid) (h : findPid all root_pid = some root) :
    buildChain root_pid all linked = all.foldl (push root linked) [memberOf root .Self] := by
  rw [buildChain, h]

theorem buildChain_nil (linked : List Pid) (h : findPid all root_pid = none) :
    buildChain root_pid all linked = [] := by
  rw [buildChain, h]

theorem buildChain_nodup (root_pid : Pid) (all : List ListedProcess) (linked : List Pid) :
    ((buildChain root_pid all linked).map (·.pid)).Nodup := by
  cases h : findPid all root_pid with
  | none =>
      rw [buildChain_nil linked h]
      exact List.nodup_nil
  | some root =>
      rw [buildChain_eq linked h]
      exact foldl_push_nodup root linked all _ (List.nodup_singleton _)

theorem buildChain_pids (linked : List Pid) (h : findPid all root_pid = some root) (pid : Pid) :
    pid ∈ (buildChain root_pid all linked).map (·.pid) ↔
      pid = root.pid ∨ ∃ p ∈ all, p.pid = pid ∧ Pushed root linked p := by
  rw [buildChain_eq linked h, foldl_push_pids]
  exact or_congr_left List.mem_singleton

theorem buildChain_images (linked : List Pid) (h : findPid all root_pid = some root) :
    ∀ m ∈ buildChain root_pid all linked,
      m = memberOf root .Self ∨ isInspectorName m.image = false := by
  intro m hm
  rw [buildChain_eq linked h] at hm
  exact (foldl_push_images root linked all _ m hm).imp_left List.mem_singleton.mp

end

/-! ## What is put back -/

/-- A member of the last chain that `MergeLastKnown` puts back on a chain. -/
def putBack (live : List ChainMember) (root root_ppid : Pid) (old : ChainMember) : Bool :=
  !(hasPid live old.pid || isInspectorName old.image || !stillRelated root root_ppid old)

theorem foldl_putBack (root root_ppid : Pid) : ∀ (last live : List ChainMember),
    (last.map (·.pid)).Nodup →
      last.foldl
          (fun live old =>
            if hasPid live old.pid || isInspectorName old.image || !stillRelated root root_ppid old
            then live else live ++ [gone old])
          live =
        live ++ (last.filter (putBack live root root_ppid)).map gone := by
  intro last
  induction last with
  | nil => exact fun live _ => (List.append_nil live).symm
  | cons old last ih =>
      intro live h
      rw [List.map_cons, List.nodup_cons] at h
      rw [List.foldl_cons]
      split
      · next hskip =>
          have hnot : putBack live root root_ppid old = false := by rw [putBack, hskip]; rfl
          rw [ih live h.2, List.filter_cons, if_neg (by rw [hnot]; exact Bool.false_ne_true)]
      · next hkeep =>
          have hput : putBack live root root_ppid old = true := by
            rw [putBack, Bool.eq_false_iff.mpr hkeep]
            rfl
          -- the pid that is put back is none of those that are left
          have hrest : ∀ x ∈ last,
              putBack (live ++ [gone old]) root root_ppid x = putBack live root root_ppid x := by
            intro x hx
            have hne : ¬ old.pid = x.pid := fun heq => h.1 (List.mem_map.mpr ⟨x, hx, heq.symm⟩)
            have hhas : hasPid (live ++ [gone old]) x.pid = hasPid live x.pid := by
              simp [hasPid, gone, hne]
            rw [putBack, hhas, putBack]
          rw [ih _ h.2, List.filter_congr hrest, List.filter_cons, if_pos hput, List.map_cons,
            List.append_assoc, List.singleton_append]

/-- The members of the last chain that are put back, whether the root is listed or not. -/
def returned (live last : List ChainMember) : List ChainMember :=
  last.filter fun old =>
    match live with
    | [] => !isInspectorName old.image
    | root :: _ => putBack live root.pid root.ppid old

theorem mergeLastKnown_eq (live : List ChainMember) {last : List ChainMember}
    (h : (last.map (·.pid)).Nodup) :
    mergeLastKnown live last = live ++ (returned live last).map gone := by
  cases live with
  | nil => rfl
  | cons root tail => exact foldl_putBack root.pid root.ppid last (root :: tail) h

theorem map_gone_pid (ms : List ChainMember) : (ms.map gone).map (·.pid) = ms.map (·.pid) := by
  rw [List.map_map]
  rfl

theorem mergeLastKnown_nodup {live last : List ChainMember} (hlive : (live.map (·.pid)).Nodup)
    (hlast : (last.map (·.pid)).Nodup) : ((mergeLastKnown live last).map (·.pid)).Nodup := by
  rw [mergeLastKnown_eq live hlast, List.map_append, map_gone_pid]
  refine hlive.append (hlast.sublist (List.filter_sublist.map _)) fun pid hpid hback => ?_
  obtain ⟨old, hold, rfl⟩ := List.mem_map.mp hback
  cases live with
  | nil => exact nomatch hpid
  | cons root tail =>
      have hput : putBack (root :: tail) root.pid root.ppid old = true :=
        (List.mem_filter.mp hold).2
      rw [putBack, Bool.not_eq_true', Bool.or_eq_false_iff, Bool.or_eq_false_iff] at hput
      exact absurd (hasPid_iff.mpr hpid) (Bool.eq_false_iff.mp hput.1.1)

/-! ## What a chain is reported of -/

/-- The root of a chain, and the processes listed and linked when it is reported. -/
structure Survey where
  root : Pid
  all : List ListedProcess
  linked : List Pid

/-- The chain that is reported, and kept as the last. -/
def Survey.chain (s : Survey) (last : List ChainMember) : List ChainMember :=
  mergeLastKnown (buildChain s.root s.all s.linked) last

/-- The survey of a command that reports a chain. -/
def surveyed (n : ℕ) (w : World) (st : MctState) (line : Bytes) : Option Survey :=
  match parseMctLine line with
  | (.Chain, arg) =>
      let st := st.chained w arg
      if st.pid = 0 then none else some ⟨st.pid, w.lists 1, st.linked⟩
  | (.Link, arg) =>
      if arg = [] then none
      else (resolve (w.lists 0) arg).map fun p =>
        ⟨if st.pid = 0 then p.pid else st.pid, w.lists 0,
          if p.pid ∈ st.linked then st.linked else st.linked ++ [p.pid]⟩
  | (.Job, arg) =>
      if isReport arg then some ⟨(st.report n w).source_pid, w.lists 2, st.linked⟩ else none
  | _ => none

section

variable {n : ℕ} {w : World} {st : MctState} {line : Bytes}

theorem MctState.chained_kept (st : MctState) (w : World) (arg : Bytes) :
    (st.chained w arg).last_chain = st.last_chain ∧ (st.chained w arg).linked = st.linked := by
  rw [chained]
  split
  · split
    · exact ⟨rfl, rfl⟩
    · exact ⟨rfl, rfl⟩
  · exact ⟨rfl, rfl⟩

/-- What a command reports, and what it keeps. -/
structure Surveyed (n : ℕ) (w : World) (st : MctState) (line : Bytes) : Prop where
  chain : (execMctLine n w st line).1.chain =
    (surveyed n w st line).map fun s => s.chain st.last_chain
  kept : ∀ s, surveyed n w st line = some s →
    (execMctLine n w st line).2.last_chain = s.chain st.last_chain
  rest : surveyed n w st line = none →
    (execMctLine n w st line).2.last_chain = st.last_chain ∨
      (execMctLine n w st line).2.last_chain = []

/-- A command that reports no chain and keeps the last. -/
theorem surveyed_none (h : surveyed n w st line = none)
    (hchain : (execMctLine n w st line).1.chain = none)
    (hlast : (execMctLine n w st line).2.last_chain = st.last_chain) : Surveyed n w st line where
  chain := by rw [h, hchain]; rfl
  kept := fun _ hs => nomatch h.symm.trans hs
  rest := fun _ => .inl hlast

theorem surveyed_some {s : Survey} (h : surveyed n w st line = some s)
    (hchain : (execMctLine n w st line).1.chain = some (s.chain st.last_chain))
    (hlast : (execMctLine n w st line).2.last_chain = s.chain st.last_chain) :
    Surveyed n w st line where
  chain := by rw [h, hchain]; rfl
  kept := fun s' hs => by rw [← Option.some.inj (h.symm.trans hs)]; exact hlast
  rest := fun hnone => nomatch hnone.symm.trans h

theorem surveyed_chain {arg : Bytes} (hline : parseMctLine line = (.Chain, arg)) :
    Surveyed n w st line := by
  obtain ⟨hlast, hlinked⟩ := st.chained_kept w arg
  have hexec : execMctLine n w st line = execChain w st arg := by rw [execMctLine, hline]
  by_cases hpid : (st.chained w arg).pid = 0
  · refine surveyed_none ?_ ?_ ?_
    · rw [surveyed, hline]
      exact if_pos hpid
    · rw [hexec, execChain]
      dsimp only
      rw [if_pos hpid]
      rfl
    · rw [hexec, execChain]
      dsimp only
      rw [if_pos hpid]
      exact hlast
  · refine surveyed_some (s := ⟨(st.chained w arg).pid, w.lists 1, st.linked⟩) ?_ ?_ ?_
    · rw [surveyed, hline]
      dsimp only
      rw [if_neg hpid, hlinked]
    · rw [hexec, execChain]
      dsimp only
      rw [if_neg hpid, MctState.rememberChain, hlast, hlinked]
      rfl
    · rw [hexec, execChain]
      dsimp only
      rw [if_neg hpid, MctState.rememberChain, hlast, hlinked]
      rfl

theorem surveyed_link {arg : Bytes} (hline : parseMctLine line = (.Link, arg)) :
    Surveyed n w st line := by
  have hexec : execMctLine n w st line = execLink w st arg := by rw [execMctLine, hline]
  by_cases harg : arg = []
  · refine surveyed_none ?_ ?_ ?_
    · rw [surveyed, hline]
      exact if_pos harg
    · rw [hexec, execLink, if_pos harg]
      rfl
    · rw [hexec, execLink, if_pos harg]
  · cases hp : resolve (w.lists 0) arg with
    | none =>
        refine surveyed_none ?_ ?_ ?_
        · rw [surveyed, hline]
          dsimp only
          rw [if_neg harg, hp]
          rfl
        · rw [hexec, execLink, if_neg harg, hp]
          rfl
        · rw [hexec, execLink, if_neg harg, hp]
    | some p =>
        refine surveyed_some (s := ⟨if st.pid = 0 then p.pid else st.pid, w.lists 0,
          if p.pid ∈ st.linked then st.linked else st.linked ++ [p.pid]⟩) ?_ ?_ ?_
        · rw [surveyed, hline]
          dsimp only
          rw [if_neg harg, hp]
          rfl
        · rw [hexec, execLink, if_neg harg, hp]
          rfl
        · rw [hexec, execLink, if_neg harg, hp]
          rfl

theorem surveyed_job {arg : Bytes} (hline : parseMctLine line = (.Job, arg)) :
    Surveyed n w st line := by
  have hexec : execMctLine n w st line = execJob n w st arg := by rw [execMctLine, hline]
  by_cases hreport : isReport arg = true
  · have hnot : ¬ ¬ isReport arg = true := not_not.mpr hreport
    have hlast : (execJob n w st arg).2.last_chain =
        mergeLastKnown (buildChain (st.report n w).source_pid (w.lists 2) st.linked)
          st.last_chain := by
      rw [execJob]
      dsimp only
      rw [if_neg hnot]
      split
      · rfl
      · rfl
    have hchain : (execJob n w st arg).1.chain = some (execJob n w st arg).2.last_chain := by
      rw [execJob]
      dsimp only
      rw [if_neg hnot]
    refine surveyed_some (s := ⟨(st.report n w).source_pid, w.lists 2, st.linked⟩) ?_ ?_ ?_
    · rw [surveyed, hline]
      exact if_pos hreport
    · rw [hexec, hchain, hlast]
      rfl
    · rw [hexec, hlast]
      rfl
  · refine surveyed_none ?_ ?_ ?_
    · rw [surveyed, hline]
      exact if_neg hreport
    · rw [hexec, execJob]
      dsimp only
      rw [if_pos hreport]
      rfl
    · rw [hexec, execJob]
      dsimp only
      rw [if_pos hreport]

theorem MctState.keep_last_chain (st : MctState) (pid : Pid) (a : InspectAttempt) :
    (st.keep pid a).last_chain = st.last_chain := by
  rw [keep]
  split
  · rfl
  · rfl

theorem execInspect_last (arg : Bytes) : (execInspect n w st arg).1.chain = none ∧
    (execInspect n w st arg).2.last_chain = st.last_chain := by
  rw [execInspect]
  split
  · exact ⟨rfl, rfl⟩
  · split
    · dsimp only
      split
      · exact ⟨rfl, rfl⟩
      · exact ⟨rfl, rfl⟩
    · exact ⟨rfl, MctState.keep_last_chain _ _ _⟩

theorem execFind_last (arg : Bytes) : (execFind n w st arg).1.chain = none ∧
    (execFind n w st arg).2.last_chain = st.last_chain := by
  rw [execFind]
  split
  · exact ⟨rfl, rfl⟩
  · dsimp only
    split
    · exact ⟨rfl, rfl⟩
    · exact ⟨rfl, MctState.keep_last_chain _ _ _⟩

theorem execGraphics_last : (execGraphics n w st).1.chain = none ∧
    (execGraphics n w st).2.last_chain = st.last_chain := by
  rw [execGraphics]
  dsimp only
  split
  · exact ⟨rfl, rfl⟩
  · exact ⟨rfl, MctState.keep_last_chain _ _ _⟩

theorem execTouch_last (arg : Bytes) : (execTouch w st arg).1.chain = none ∧
    (execTouch w st arg).2.last_chain = st.last_chain := by
  rw [execTouch]
  split
  · exact ⟨rfl, rfl⟩
  · dsimp only
    split
    · exact ⟨rfl, rfl⟩
    · exact ⟨rfl, rfl⟩

/-- The step lemma: every command reports the chain of its survey, or none. -/
theorem execMctLine_surveyed (n : ℕ) (w : World) (st : MctState) (line : Bytes) :
    Surveyed n w st line := by
  rcases hline : parseMctLine line with ⟨op, arg⟩
  have hexec := execMctLine.eq_def n w st line
  have hnone : op ≠ .Chain → op ≠ .Link → op ≠ .Job → surveyed n w st line = none := by
    intro hchain hlink hjob
    rw [surveyed, hline]
    cases op <;> first | rfl | contradiction
  rw [hline] at hexec
  cases op with
  | Chain => exact surveyed_chain hline
  | Link => exact surveyed_link hline
  | Job => exact surveyed_job hline
  | Inspect =>
      refine surveyed_none (hnone nofun nofun nofun) ?_ ?_
      · rw [hexec]; exact (execInspect_last arg).1
      · rw [hexec]; exact (execInspect_last arg).2
  | Find =>
      refine surveyed_none (hnone nofun nofun nofun) ?_ ?_
      · rw [hexec]; exact (execFind_last arg).1
      · rw [hexec]; exact (execFind_last arg).2
  | Graphics =>
      refine surveyed_none (hnone nofun nofun nofun) ?_ ?_
      · rw [hexec]; exact execGraphics_last.1
      · rw [hexec]; exact execGraphics_last.2
  | Touch =>
      refine surveyed_none (hnone nofun nofun nofun) ?_ ?_
      · rw [hexec]; exact (execTouch_last arg).1
      · rw [hexec]; exact (execTouch_last arg).2
  | Clear =>
      refine ⟨?_, fun s hs => ?_, fun _ => .inr ?_⟩
      · rw [hnone nofun nofun nofun, hexec]; rfl
      · exact nomatch (hnone nofun nofun nofun).symm.trans hs
      · rw [hexec]
  | Help => exact surveyed_none (hnone nofun nofun nofun) (by rw [hexec]) (by rw [hexec])
  | List => exact surveyed_none (hnone nofun nofun nofun) (by rw [hexec]) (by rw [hexec])
  | Status => exact surveyed_none (hnone nofun nofun nofun) (by rw [hexec]) (by rw [hexec])
  | Grant => exact surveyed_none (hnone nofun nofun nofun) (by rw [hexec]) (by rw [hexec])
  | Mapped => exact surveyed_none (hnone nofun nofun nofun) (by rw [hexec]) (by rw [hexec])
  | Unlink => exact surveyed_none (hnone nofun nofun nofun) (by rw [hexec]) (by rw [hexec])
  | Unknown => exact surveyed_none (hnone nofun nofun nofun) (by rw [hexec]; rfl) (by rw [hexec])

/-- No pid is kept twice. -/
theorem last_chain_nodup (h : (st.last_chain.map (·.pid)).Nodup) :
    ((execMctLine n w st line).2.last_chain.map (·.pid)).Nodup := by
  have hexec := execMctLine_surveyed n w st line
  cases hs : surveyed n w st line with
  | none =>
      rcases hexec.rest hs with hlast | hlast
      · rwa [hlast]
      · rw [hlast]
        exact List.nodup_nil
  | some s =>
      rw [hexec.kept s hs]
      exact mergeLastKnown_nodup (buildChain_nodup s.root s.all s.linked) h

end

/-! ## What went before -/

/-- The chains reported so far, each with its root, and the processes ever linked. -/
structure Past where
  chains : List (Pid × List ChainMember) := []
  links : List Pid := []

/-- What a command adds to what went before. -/
def Past.after (n : ℕ) (w : World) (st : MctState) (past : Past) (line : Bytes) : Past where
  chains :=
    match surveyed n w st line, (execMctLine n w st line).1.chain with
    | some s, some chain => past.chains ++ [(s.root, chain)]
    | _, _ => past.chains
  links :=
    match parseMctLine line with
    | (.Link, arg) =>
        if arg = [] then past.links
        else past.links ++ ((resolve (w.lists 0) arg).map (·.pid)).toList
    | _ => past.links

/-- A command after another, with what went before it: `P` holds of each. -/
def Kept (P : ℕ → World → MctState → Past → Bytes → Prop) :
    ℕ → MctState → Past → List (World × Bytes) → Prop
  | _, _, _, [] => True
  | n, st, past, (w, line) :: cmds =>
      P n w st past line ∧
        Kept P (n + 1) (execMctLine n w st line).2 (past.after n w st line) cmds

/-- A member as the process it was. -/
def asListed (m : ChainMember) : ListedProcess where
  pid := m.pid
  ppid := m.ppid
  image := m.image
  cmdline := m.cmdline
  session_id := m.session_id
  rss_kb := m.rss_kb
  readable := m.readable

namespace Survey

variable (s : Survey) (past : Past) (last : List ChainMember)

/-- The root, as it is listed, or else as the last chain knows it. -/
def known : ListedProcess :=
  (findPid s.all s.root).getD
    (((last.find? fun m => m.pid = s.root).map asListed).getD { pid := s.root })

/-- A pid of the root where it is alive, or of a live process that is related to it. -/
def Live (pid : Pid) : Prop :=
  (pid = s.root ∧ findPid s.all s.root ≠ none) ∨
    ∃ p ∈ s.all, p.pid = pid ∧ Pushed (s.known last) s.linked p

/-- A process that left an earlier chain of the root, and was not unlinked. -/
structure Left (pid : Pid) : Prop where
  earlier : ∃ chain, (s.root, chain) ∈ past.chains ∧ pid ∈ chain.map (·.pid)
  dead : findPid s.all pid = none
  still : pid ∈ past.links → pid ∈ s.linked

/-- What is said of a chain that is reported. -/
structure Sound (chain : List ChainMember) : Prop where
  nodup : (chain.map (·.pid)).Nodup
  root : ∀ root, findPid s.all s.root = some root → chain.head? = some (memberOf root .Self)
  inspector : ∀ m ∈ chain, isInspectorName m.image = true → m.pid = s.root
  related : ∀ p ∈ s.all, Pushed (s.known last) s.linked p → p.pid ∈ chain.map (·.pid)
  further : ∀ m ∈ chain, ¬ s.Live last m.pid → s.Left past m.pid ∧ m.readable = false

/-- A member of the last chain that looks related to the root. -/
def Looks (old : ChainMember) : Prop :=
  isInspectorName old.image = false ∧
    ∀ root, findPid s.all s.root = some root → stillRelated root.pid root.ppid old = true

/-- The last chain does for this one: what looks related and is not live has left a chain
of the root, and a root that is gone has no live process that the last chain lacks. -/
structure Fits : Prop where
  left : ∀ old ∈ last, s.Looks old → ¬ s.Live last old.pid → s.Left past old.pid
  found : findPid s.all s.root = none → ∀ p ∈ s.all, Pushed (s.known last) s.linked p →
    ∃ old ∈ last, old.pid = p.pid ∧ isInspectorName old.image = false

variable {s past last}

theorem known_listed {root : ListedProcess} (h : findPid s.all s.root = some root) :
    s.known last = root := by
  rw [known, h]
  rfl

theorem live_listed {root : ListedProcess} (h : findPid s.all s.root = some root) (pid : Pid) :
    s.Live last pid ↔ pid ∈ (buildChain s.root s.all s.linked).map (·.pid) := by
  rw [buildChain_pids s.linked h, Live, known_listed h, findPid_pid h]
  refine or_congr_left ⟨And.left, fun heq => ⟨heq, ?_⟩⟩
  rw [h]
  exact Option.some_ne_none root

theorem mem_chain (hlast : (last.map (·.pid)).Nodup) {m : ChainMember} :
    m ∈ s.chain last ↔ m ∈ buildChain s.root s.all s.linked ∨
      ∃ old ∈ last, (s.Looks old ∧ old.pid ∉ (buildChain s.root s.all s.linked).map (·.pid)) ∧
        gone old = m := by
  rw [chain, mergeLastKnown_eq _ hlast, List.mem_append, List.mem_map]
  refine or_congr_right (exists_congr fun old => ?_)
  rw [returned, List.mem_filter, and_assoc]
  refine and_congr_right fun _ => and_congr_left fun _ => ?_
  cases h : findPid s.all s.root with
  | none =>
      rw [buildChain_nil s.linked h, Looks, h, Bool.not_eq_true']
      exact ⟨fun himage => ⟨⟨himage, nofun⟩, nofun⟩, fun hlooks => hlooks.1.1⟩
  | some root =>
      rcases buildChain_cases s.root s.all s.linked with ⟨hnone, -⟩ | ⟨root', tail, hroot, heq, -⟩
      · exact nomatch h.symm.trans hnone
      · obtain rfl := Option.some.inj (h.symm.trans hroot)
        rw [heq, Looks, h, ← hasPid_iff]
        show putBack (memberOf root .Self :: tail) root.pid root.ppid old = true ↔ _
        rw [putBack, Bool.not_eq_true', Bool.or_eq_false_iff, Bool.or_eq_false_iff,
          Bool.not_eq_false', Bool.not_eq_true]
        constructor
        · rintro ⟨⟨hnew, himage⟩, hstill⟩
          exact ⟨⟨himage, fun root' hr => Option.some.inj hr ▸ hstill⟩, hnew⟩
        · rintro ⟨⟨himage, hstill⟩, hnew⟩
          exact ⟨⟨hnew, himage⟩, hstill root rfl⟩

/-- A chain is sound exactly where the last one does for it. -/
theorem sound_iff (hlast : (last.map (·.pid)).Nodup) :
    s.Sound past last (s.chain last) ↔ s.Fits past last := by
  constructor
  · intro hsound
    refine ⟨fun old hold hlooks hlive => ?_, fun hnone p hp hpushed => ?_⟩
    · have hmem : gone old ∈ s.chain last := by
        refine (mem_chain hlast).mpr (.inr ⟨old, hold, ⟨hlooks, fun hpid => hlive ?_⟩, rfl⟩)
        cases h : findPid s.all s.root with
        | none =>
            rw [buildChain_nil s.linked h] at hpid
            cases hpid
        | some root => exact (live_listed h old.pid).mpr hpid
      exact (hsound.further (gone old) hmem hlive).1
    · obtain ⟨m, hm, hpid⟩ := List.mem_map.mp (hsound.related p hp hpushed)
      rcases (mem_chain hlast).mp hm with hm | ⟨old, hold, ⟨hlooks, -⟩, rfl⟩
      · rw [buildChain_nil s.linked hnone] at hm
        cases hm
      · exact ⟨old, hold, hpid, hlooks.1⟩
  · intro hfits
    refine ⟨mergeLastKnown_nodup (buildChain_nodup s.root s.all s.linked) hlast, ?_, ?_, ?_, ?_⟩
    · intro root h
      rcases buildChain_cases s.root s.all s.linked with ⟨hnone, -⟩ | ⟨root', tail, hroot, heq, -⟩
      · cases h.symm.trans hnone
      · obtain rfl := Option.some.inj (h.symm.trans hroot)
        rw [chain, heq, mergeLastKnown_eq _ hlast]
        rfl
    · intro m hm hinspector
      rcases (mem_chain hlast).mp hm with hm | ⟨old, -, ⟨hlooks, -⟩, rfl⟩
      · cases h : findPid s.all s.root with
        | none =>
            rw [buildChain_nil s.linked h] at hm
            cases hm
        | some root =>
            rcases buildChain_images s.linked h m hm with rfl | himage
            · exact findPid_pid h
            · cases hinspector.symm.trans himage
      · cases hinspector.symm.trans hlooks.1
    · intro p hp hpushed
      cases h : findPid s.all s.root with
      | none =>
          obtain ⟨old, hold, hpid, himage⟩ := hfits.found h p hp hpushed
          have hlooks : s.Looks old := ⟨himage, fun root hroot => by cases h.symm.trans hroot⟩
          have hnew : old.pid ∉ (buildChain s.root s.all s.linked).map (·.pid) := by
            rw [buildChain_nil s.linked h]
            rintro ⟨⟩
          have hmem : gone old ∈ s.chain last :=
            (mem_chain hlast).mpr (.inr ⟨old, hold, ⟨hlooks, hnew⟩, rfl⟩)
          exact List.mem_map.mpr ⟨gone old, hmem, hpid⟩
      | some root =>
          have hlive : s.Live last p.pid := .inr ⟨p, hp, rfl, hpushed⟩
          have hmem := (live_listed h p.pid).mp hlive
          obtain ⟨m, hm, hpid⟩ := List.mem_map.mp hmem
          exact List.mem_map.mpr ⟨m, (mem_chain hlast).mpr (.inl hm), hpid⟩
    · intro m hm hlive
      rcases (mem_chain hlast).mp hm with hm | ⟨old, hold, ⟨hlooks, -⟩, rfl⟩
      · cases h : findPid s.all s.root with
        | none =>
            rw [buildChain_nil s.linked h] at hm
            cases hm
        | some root => exact absurd ((live_listed h m.pid).mpr (List.mem_map_of_mem hm)) hlive
      · exact ⟨hfits.left old hold hlooks hlive, rfl⟩

end Survey

/-! ## The chains of a run -/

/-- The command reports a sound chain, if any. -/
def SoundChain (n : ℕ) (w : World) (st : MctState) (past : Past) (line : Bytes) : Prop :=
  ∀ chain, (execMctLine n w st line).1.chain = some chain →
    ∃ s, surveyed n w st line = some s ∧ s.Sound past st.last_chain chain

/-- Where the command reports a chain, the last one does for it. -/
def FitsLast (n : ℕ) (w : World) (st : MctState) (past : Past) (line : Bytes) : Prop :=
  ∀ s, surveyed n w st line = some s → s.Fits past st.last_chain

theorem soundChain_iff {n : ℕ} {w : World} {st : MctState} {past : Past} {line : Bytes}
    (hlast : (st.last_chain.map (·.pid)).Nodup) :
    SoundChain n w st past line ↔ FitsLast n w st past line := by
  have hchain := (execMctLine_surveyed n w st line).chain
  constructor
  · intro hsound s hs
    rw [hs] at hchain
    obtain ⟨s', hs', hsound⟩ := hsound _ hchain
    obtain rfl := Option.some.inj (hs.symm.trans hs')
    exact (Survey.sound_iff hlast).mp hsound
  · intro hfits chain h
    rw [hchain] at h
    obtain ⟨s, hs, rfl⟩ := Option.map_eq_some_iff.mp h
    exact ⟨s, hs, (Survey.sound_iff hlast).mpr (hfits s hs)⟩

theorem kept_iff (cmds : List (World × Bytes)) : ∀ (n : ℕ) (st : MctState) (past : Past),
    (st.last_chain.map (·.pid)).Nodup →
      (Kept SoundChain n st past cmds ↔ Kept FitsLast n st past cmds) := by
  induction cmds with
  | nil => exact fun _ _ _ _ => Iff.rfl
  | cons cmd cmds ih =>
      intro n st past hlast
      exact and_congr (soundChain_iff hlast) (ih _ _ _ (last_chain_nodup hlast))

/-- From the start of the terminal, whatever the commands are: every chain reported is
sound exactly where the last chain does for every one. -/
theorem chains_iff (cmds : List (World × Bytes)) :
    Kept SoundChain 0 {} {} cmds ↔ Kept FitsLast 0 {} {} cmds :=
  kept_iff cmds 0 {} {} List.nodup_nil

/-! ## A process that is put back alive -/

def acad : ListedProcess := { pid := 5, image := ascii "acad.exe", rss_kb := 1 }
def notepad : ListedProcess := { pid := 11, ppid := 9, image := ascii "notepad", rss_kb := 1 }

/-- Two processes that have nothing to do with each other. -/
def unrelated : World where
  lists _ := [acad, notepad]
  dump _ _ _ _ := .error []
  touched _ _ _ := (none, 0)
  platform := []
  pad := []
  pad_detail := []

/-- The second is linked to the first and unlinked again. -/
def linkedOnce : List (World × Bytes) :=
  [(unrelated, ascii "chain 5"), (unrelated, ascii "link 11"), (unrelated, ascii "unlink 11"),
    (unrelated, ascii "chain")]

/-- It is alive and not linked, and the chain has it still. -/
theorem put_back_alive : ¬ ∀ cmds, Kept SoundChain 0 {} {} cmds := by
  intro h
  obtain ⟨s, hs, hsound⟩ :=
    (h linkedOnce).2.2.2.1 [memberOf acad .Self, gone (memberOf notepad .Linked)] rfl
  obtain rfl : (⟨5, [acad, notepad], []⟩ : Survey) = s := Option.some.inj hs
  have hmem : gone (memberOf notepad .Linked) ∈
      [memberOf acad .Self, gone (memberOf notepad .Linked)] :=
    List.mem_cons_of_mem _ (List.mem_singleton_self _)
  refine nomatch (hsound.further _ hmem ?_).1.dead
  rintro (⟨hroot, -⟩ | ⟨p, hp, hpid, -, hrel⟩)
  · exact absurd hroot (by decide)
  · rw [@Survey.known_listed ⟨5, [acad, notepad], []⟩ _ acad rfl] at hrel
    rcases List.mem_pair.mp hp with rfl | rfl
    · exact absurd hpid (by decide)
    · exact hrel (by decide)

end Secdogie.Atlas
