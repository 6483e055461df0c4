/-
# `Secdogie.Agent.Elevate` — the command lines that run as SYSTEM

The operator declares command lines; the model may ask for those.  What it asks
for is compared with blanks squeezed, wherever they stand, and is launched as
it came.

Two command lines are the same if they differ in blanks around them and in runs
of blanks outside the quotes (`collapse`).  `launched_iff` says when what is
launched is the same as what was declared.
-/
import Secdogie.Agent.Action
import Secdogie.Lib.Words

namespace Secdogie.Agent.Elevate

/-! ## The operator's allowlist -/

/-- A missing command is `none`. -/
def normalize_command : Option Str → Str
  | none => []
  | some command => [32].intercalate (words isSpace command)

def is_permitted (command : Option Str) (allowlist : List Str) : Bool :=
  if allowlist = [] then false
  else
    let target := normalize_command command
    if target = [] then false else allowlist.any fun a => normalize_command (some a) = target

inductive Reason where
  | unsupported | not_elevated | bad_command | no_session
deriving DecidableEq

/-- What a launch finds. -/
structure Machine where
  on_windows : Bool
  elevated : Bool
  session_id : Option ℕ

/-- Why a launch may not proceed, or the session it proceeds to. -/
def plan_launch (m : Machine) (command : Option Str) : Except Reason ℕ :=
  if m.on_windows = false then .error .unsupported
  else if m.elevated = false then .error .not_elevated
  else if (command.getD []).all isSpace then .error .bad_command
  else
    match m.session_id with
    | none => .error .no_session
    | some session => .ok session

/-- What the launcher is called with. -/
def run_as_system (m : Machine) (command : Option Str) : Except Reason (Str × ℕ) :=
  (plan_launch m command).map fun session => (command.getD [], session)

structure RunConfig where
  dry_run : Bool
  read_only : Bool
  elevated_allowlist : List Str

/-- How a step of the loop ends. -/
inductive Step where
  | dry_run | read_only
  /-- the path is no string: there is no command, or an exception -/
  | unread
  | elevation_off | refused
  /-- by the stall guard, the plan gate or the operator -/
  | held
  | failed (reason : Reason)
  | launched (command : Str) (session : ℕ)
deriving DecidableEq

/-- The step of a `run_elevated` action; `cleared` if the gates that follow the allowlist let it
through. -/
def run_elevated (config : RunConfig) (m : Machine) (cleared : Bool) (path : Option Json) : Step :=
  if config.dry_run then .dry_run
  else if config.read_only then .read_only
  else
    match path with
    | some (.str path) =>
        let cmd := strip isSpace path
        if config.elevated_allowlist = [] then .elevation_off
        else if is_permitted (some cmd) config.elevated_allowlist = false then .refused
        else if cleared = false then .held
        else
          match run_as_system m (some path) with
          | .error reason => .failed reason
          | .ok (command, session) => .launched command session
    | _ => .unread

/-! ## Command lines that are the same -/

/-- Where a reader of a command line stands: within quotes, and after an odd number of
backslashes. -/
structure Quoting where
  inside : Bool := false
  escaped : Bool := false
deriving DecidableEq

def Quoting.next (q : Quoting) (c : ℕ) : Quoting :=
  if c = 92 then { q with escaped := !q.escaped }
  else if c = 34 ∧ q.escaped = false then { inside := !q.inside }
  else { q with escaped := false }

/-- One space for each run of blanks outside the quotes; `run` within a run. -/
def collapse (q : Quoting) (run : Bool) : Str → Str
  | [] => []
  | c :: l =>
      if isSpace c then
        if q.inside then c :: collapse (q.next c) true l
        else if run then collapse (q.next c) true l
        else 32 :: collapse (q.next c) true l
      else c :: collapse (q.next c) false l

/-- The same but for the blanks around them and the runs of blanks outside their quotes. -/
def SameCommand (a b : Str) : Prop :=
  collapse {} true (strip isSpace a) = collapse {} true (strip isSpace b)

instance (a b : Str) : Decidable (SameCommand a b) := inferInstanceAs (Decidable (_ = _))

/-- The arguments, and an empty one where blanks follow one another. -/
def split (q : Quoting) : Str → List Str
  | [] => [[]]
  | c :: l =>
      if isSpace c = true ∧ q.inside = false then [] :: split (q.next c) l
      else (split (q.next c) l).modifyHead (c :: ·)

def arguments (command : Str) : List Str :=
  (split {} (strip isSpace command)).filter (! ·.isEmpty)

/-- The blanks within quotes that follow each letter. -/
def quotedBlanks (q : Quoting) : Str → List Str
  | [] => [[]]
  | c :: l =>
      if isSpace c then
        if q.inside then (quotedBlanks (q.next c) l).modifyHead (c :: ·)
        else quotedBlanks (q.next c) l
      else [] :: quotedBlanks (q.next c) l

/-! ## One letter -/

section

variable {c : ℕ} {q : Quoting} {run : Bool} {l : Str}

theorem next_of_blank (hc : isSpace c = true) : q.next c = { q with escaped := false } := by
  have hslash : c ≠ 92 := by
    rintro rfl
    exact absurd hc (by decide)
  have hquote : c ≠ 34 := by
    rintro rfl
    exact absurd hc (by decide)
  rw [Quoting.next, if_neg hslash, if_neg (fun hand => hquote hand.1)]

theorem next_eq_self (hc : isSpace c = true) (hq : q.escaped = false) : q.next c = q := by
  rw [next_of_blank hc, ← hq]

theorem next_escaped (hc : isSpace c = true) : (q.next c).escaped = false := by
  rw [next_of_blank hc]

theorem collapse_quoted (hc : isSpace c = true) (hq : q.inside = true) :
    collapse q run (c :: l) = c :: collapse (q.next c) true l := by
  rw [collapse, if_pos hc, if_pos hq]

theorem collapse_run (hc : isSpace c = true) (hq : q.inside = false) :
    collapse q true (c :: l) = collapse (q.next c) true l := by
  rw [collapse, if_pos hc, hq, if_neg Bool.false_ne_true, if_pos rfl]

theorem collapse_blank (hc : isSpace c = true) (hq : q.inside = false) :
    collapse q false (c :: l) = 32 :: collapse (q.next c) true l := by
  rw [collapse, if_pos hc, hq, if_neg Bool.false_ne_true, if_neg Bool.false_ne_true]

theorem collapse_letter (hc : isSpace c = false) :
    collapse q run (c :: l) = c :: collapse (q.next c) false l := by
  rw [collapse, if_neg (by rw [hc]; exact Bool.false_ne_true)]

theorem squeeze_run (hc : isSpace c = true) :
    squeeze isSpace 32 true (c :: l) = squeeze isSpace 32 true l := by
  rw [squeeze, if_pos hc, if_pos rfl]

theorem squeeze_blank (hc : isSpace c = true) :
    squeeze isSpace 32 false (c :: l) = 32 :: squeeze isSpace 32 true l := by
  rw [squeeze, if_pos hc, if_neg Bool.false_ne_true]

theorem squeeze_letter (hc : isSpace c = false) :
    squeeze isSpace 32 run (c :: l) = c :: squeeze isSpace 32 false l := by
  rw [squeeze, if_neg (by rw [hc]; exact Bool.false_ne_true)]

theorem quotedBlanks_quoted (hc : isSpace c = true) (hq : q.inside = true) :
    quotedBlanks q (c :: l) = (quotedBlanks (q.next c) l).modifyHead (c :: ·) := by
  rw [quotedBlanks, if_pos hc, if_pos hq]

theorem quotedBlanks_blank (hc : isSpace c = true) (hq : q.inside = false) :
    quotedBlanks q (c :: l) = quotedBlanks (q.next c) l := by
  rw [quotedBlanks, if_pos hc, hq, if_neg Bool.false_ne_true]

theorem quotedBlanks_letter (hc : isSpace c = false) :
    quotedBlanks q (c :: l) = [] :: quotedBlanks (q.next c) l := by
  rw [quotedBlanks, if_neg (by rw [hc]; exact Bool.false_ne_true)]

end

theorem quotedBlanks_ne_nil (q : Quoting) (l : Str) : quotedBlanks q l ≠ [] := by
  induction l generalizing q with
  | nil => exact List.cons_ne_nil _ _
  | cons c l ih =>
      rw [quotedBlanks]
      split_ifs
      · exact fun hnil => ih _ (List.modifyHead_eq_nil_iff.mp hnil)
      · exact ih _
      · exact List.cons_ne_nil _ _

/-- A letter put before the first list of some. -/
theorem modifyHead_cons_inj {c d : ℕ} {x y : List Str} (hx : x ≠ []) (hy : y ≠ [])
    (h : x.modifyHead (c :: ·) = y.modifyHead (d :: ·)) : c = d ∧ x = y := by
  cases x with
  | nil => exact absurd rfl hx
  | cons w ws =>
      cases y with
      | nil => exact absurd rfl hy
      | cons w' ws' =>
          rw [List.modifyHead_cons, List.modifyHead_cons, List.cons.injEq, List.cons.injEq] at h
          obtain ⟨⟨rfl, rfl⟩, rfl⟩ := h
          exact ⟨rfl, rfl⟩

theorem modifyHead_cons_ne {c : ℕ} {x y : List Str} (hx : x ≠ []) :
    x.modifyHead (c :: ·) ≠ [] :: y := by
  cases x with
  | nil => exact absurd rfl hx
  | cons w ws => exact fun h => nomatch (List.cons.inj h).1

/-! ## What squeezing forgets -/

/-- Squeezed, a text does not show whether it was collapsed. -/
theorem squeeze_collapse (q : Quoting) (run : Bool) (l : Str) :
    squeeze isSpace 32 run (collapse q run l) = squeeze isSpace 32 run l := by
  induction l generalizing q run with
  | nil => rfl
  | cons c l ih =>
      cases hc : isSpace c with
      | true =>
          cases hin : q.inside with
          | true =>
              rw [collapse_quoted hc hin]
              cases run with
              | true => rw [squeeze_run hc, squeeze_run hc, ih]
              | false => rw [squeeze_blank hc, squeeze_blank hc, ih]
          | false =>
              cases run with
              | true => rw [collapse_run hc hin, squeeze_run hc, ih]
              | false => rw [collapse_blank hc hin, squeeze_blank (by decide), squeeze_blank hc, ih]
      | false => rw [collapse_letter hc, squeeze_letter hc, squeeze_letter hc, ih]

/-- The blanks within the quotes are all there. -/
theorem quotedBlanks_collapse {q : Quoting} {run : Bool} (hrun : run = true → q.escaped = false)
    (l : Str) : quotedBlanks q (collapse q run l) = quotedBlanks q l := by
  induction l generalizing q run with
  | nil => rfl
  | cons c l ih =>
      cases hc : isSpace c with
      | true =>
          have hnext := @ih (q.next c) true fun _ => next_escaped hc
          cases hin : q.inside with
          | true =>
              rw [collapse_quoted hc hin, quotedBlanks_quoted hc hin, quotedBlanks_quoted hc hin,
                hnext]
          | false =>
              rw [quotedBlanks_blank hc hin]
              cases run with
              | true =>
                  rw [collapse_run hc hin]
                  rw [next_eq_self hc (hrun rfl)] at hnext ⊢
                  exact hnext
              | false =>
                  have h32 : q.next 32 = q.next c := by
                    rw [next_of_blank hc, next_of_blank (by decide)]
                  rw [collapse_blank hc hin, quotedBlanks_blank (by decide) hin, h32, hnext]
      | false =>
          have hnext := @ih (q.next c) false nofun
          rw [collapse_letter hc, quotedBlanks_letter hc, quotedBlanks_letter hc, hnext]

/-- By induction on both texts, with what a run of blanks outside the quotes has before the other
text dropped first: squeezed they are the same, and so are the blanks within their quotes. -/
theorem collapse_congr : ∀ {a b : Str} {q : Quoting} {run : Bool}, (run = true → q.escaped = false) →
    squeeze isSpace 32 run a = squeeze isSpace 32 run b → quotedBlanks q a = quotedBlanks q b →
    collapse q run a = collapse q run b
  | [], [], _, _, _, _, _ => rfl
  | [], d :: b, q, run, hrun, hs, hq => by
      cases hd : isSpace d with
      | false =>
          rw [squeeze_letter hd] at hs
          exact absurd hs.symm (List.cons_ne_nil _ _)
      | true =>
          cases hin : q.inside with
          | true =>
              rw [quotedBlanks_quoted hd hin] at hq
              exact absurd hq.symm (modifyHead_cons_ne (quotedBlanks_ne_nil _ _))
          | false =>
              cases run with
              | false =>
                  rw [squeeze_blank hd] at hs
                  exact absurd hs.symm (List.cons_ne_nil _ _)
              | true =>
                  rw [squeeze_run hd] at hs
                  rw [quotedBlanks_blank hd hin] at hq
                  rw [collapse_run hd hin]
                  rw [next_eq_self hd (hrun rfl)] at hq ⊢
                  exact collapse_congr hrun hs hq
  | c :: a, b, q, run, hrun, hs, hq => by
      cases hc : isSpace c with
      | true =>
          cases hin : q.inside with
          | true =>
              rw [quotedBlanks_quoted hc hin] at hq
              cases b with
              | nil => exact absurd hq (modifyHead_cons_ne (quotedBlanks_ne_nil _ _))
              | cons d b =>
                  cases hd : isSpace d with
                  | false =>
                      rw [quotedBlanks_letter hd] at hq
                      exact absurd hq (modifyHead_cons_ne (quotedBlanks_ne_nil _ _))
                  | true =>
                      rw [quotedBlanks_quoted hd hin] at hq
                      obtain ⟨rfl, hrest⟩ := modifyHead_cons_inj (quotedBlanks_ne_nil _ _)
                        (quotedBlanks_ne_nil _ _) hq
                      have hs' : squeeze isSpace 32 true a = squeeze isSpace 32 true b := by
                        cases run with
                        | true =>
                            rw [squeeze_run hc, squeeze_run hc] at hs
                            exact hs
                        | false =>
                            rw [squeeze_blank hc, squeeze_blank hc] at hs
                            exact (List.cons.inj hs).2
                      rw [collapse_quoted hc hin, collapse_quoted hc hin,
                        collapse_congr (fun _ => next_escaped hc) hs' hrest]
          | false =>
              cases run with
              | true =>
                  rw [squeeze_run hc] at hs
                  rw [quotedBlanks_blank hc hin] at hq
                  rw [collapse_run hc hin]
                  rw [next_eq_self hc (hrun rfl)] at hq ⊢
                  exact collapse_congr hrun hs hq
              | false =>
                  rw [squeeze_blank hc] at hs
                  cases b with
                  | nil => exact absurd hs (List.cons_ne_nil _ _)
                  | cons d b =>
                      cases hd : isSpace d with
                      | false =>
                          rw [squeeze_letter hd] at hs
                          rw [← (List.cons.inj hs).1] at hd
                          exact nomatch hd
                      | true =>
                          rw [squeeze_blank hd] at hs
                          have hnext : q.next c = q.next d := by
                            rw [next_of_blank hc, next_of_blank hd]
                          rw [quotedBlanks_blank hc hin, quotedBlanks_blank hd hin, hnext] at hq
                          rw [collapse_blank hc hin, collapse_blank hd hin, hnext,
                            collapse_congr (fun _ => next_escaped hd) (List.cons.inj hs).2 hq]
      | false =>
          cases b with
          | nil =>
              rw [squeeze_letter hc] at hs
              exact absurd hs (List.cons_ne_nil _ _)
          | cons d b =>
              cases hd : isSpace d with
              | false =>
                  rw [squeeze_letter hc, squeeze_letter hd] at hs
                  obtain ⟨rfl, hs'⟩ := List.cons.inj hs
                  rw [quotedBlanks_letter hc, quotedBlanks_letter hc] at hq
                  have hnext : collapse (q.next c) false a = collapse (q.next c) false b :=
                    collapse_congr nofun hs' (List.cons.inj hq).2
                  rw [collapse_letter hc, collapse_letter hc, hnext]
              | true =>
                  cases hin : q.inside with
                  | true =>
                      rw [quotedBlanks_letter hc, quotedBlanks_quoted hd hin] at hq
                      exact absurd hq.symm (modifyHead_cons_ne (quotedBlanks_ne_nil _ _))
                  | false =>
                      cases run with
                      | false =>
                          rw [squeeze_letter hc, squeeze_blank hd] at hs
                          rw [(List.cons.inj hs).1] at hc
                          exact nomatch hc
                      | true =>
                          rw [squeeze_run hd] at hs
                          rw [quotedBlanks_blank hd hin] at hq
                          rw [collapse_run hd hin]
                          rw [next_eq_self hd (hrun rfl)] at hq ⊢
                          exact collapse_congr hrun hs hq
termination_by a b => a.length + b.length

/-- What two command lines have in common that are the same. -/
theorem sameCommand_iff {a b : Str} : SameCommand a b ↔
    squeeze isSpace 32 true (strip isSpace a) = squeeze isSpace 32 true (strip isSpace b) ∧
    quotedBlanks {} (strip isSpace a) = quotedBlanks {} (strip isSpace b) := by
  constructor
  · intro h
    have hsqueeze := congrArg (squeeze isSpace 32 true) h
    have hquoted := congrArg (quotedBlanks {}) h
    rw [squeeze_collapse, squeeze_collapse] at hsqueeze
    rw [quotedBlanks_collapse (fun _ => rfl), quotedBlanks_collapse (fun _ => rfl)] at hquoted
    exact ⟨hsqueeze, hquoted⟩
  · rintro ⟨hsqueeze, hquoted⟩
    exact collapse_congr (fun _ => rfl) hsqueeze hquoted

/-! ## The arguments -/

theorem split_ne_nil (q : Quoting) (l : Str) : split q l ≠ [] := by
  induction l generalizing q with
  | nil => exact List.cons_ne_nil _ _
  | cons c l ih =>
      rw [split]
      split_ifs
      · exact List.cons_ne_nil _ _
      · exact fun hnil => ih _ (List.modifyHead_eq_nil_iff.mp hnil)

theorem split_separator {c : ℕ} {q : Quoting} (hc : isSpace c = true) (hq : q.inside = false)
    (l : Str) : split q (c :: l) = [] :: split (q.next c) l := by
  rw [split, if_pos ⟨hc, hq⟩]

theorem split_other {c : ℕ} {q : Quoting} (h : ¬ (isSpace c = true ∧ q.inside = false)) (l : Str) :
    split q (c :: l) = (split (q.next c) l).modifyHead (c :: ·) := by
  rw [split, if_neg h]

/-- The same arguments, the first of them with what may follow. -/
def Alike (x y : List Str) : Prop :=
  x.head? = y.head? ∧ x.tail.filter (! ·.isEmpty) = y.tail.filter (! ·.isEmpty)

theorem Alike.filter {x y : List Str} (h : Alike x y) :
    x.filter (! ·.isEmpty) = y.filter (! ·.isEmpty) := by
  obtain ⟨hhead, htail⟩ := h
  cases x with
  | nil =>
      cases y with
      | nil => rfl
      | cons w' ws' => exact nomatch hhead
  | cons w ws =>
      cases y with
      | nil => exact nomatch hhead
      | cons w' ws' =>
          cases hhead
          rw [List.filter_cons, List.filter_cons]
          exact congrArg (fun rest => if (!w.isEmpty) = true then w :: rest else rest) htail

theorem Alike.modifyHead {x y : List Str} (h : Alike x y) (c : ℕ) :
    Alike (x.modifyHead (c :: ·)) (y.modifyHead (c :: ·)) := by
  obtain ⟨hhead, htail⟩ := h
  cases x with
  | nil =>
      cases y with
      | nil => exact ⟨rfl, rfl⟩
      | cons w' ws' => exact nomatch hhead
  | cons w ws =>
      cases y with
      | nil => exact nomatch hhead
      | cons w' ws' =>
          cases hhead
          exact ⟨rfl, htail⟩

/-- A text and its collapse have the same arguments; where no blank can be dropped before it, the
first may go on. -/
theorem split_collapse {q : Quoting} {run : Bool} (hrun : run = true → q.escaped = false) (l : Str) :
    (split q (collapse q run l)).filter (! ·.isEmpty) = (split q l).filter (! ·.isEmpty) ∧
    (run = false ∨ q.inside = true → Alike (split q (collapse q run l)) (split q l)) := by
  induction l generalizing q run with
  | nil => exact ⟨rfl, fun _ => ⟨rfl, rfl⟩⟩
  | cons c l ih =>
      by_cases hsep : isSpace c = true ∧ q.inside = false
      · obtain ⟨hc, hin⟩ := hsep
        have hnext := (@ih (q.next c) true fun _ => next_escaped hc).1
        rw [split_separator hc hin]
        cases run with
        | true =>
            rw [next_eq_self hc (hrun rfl)] at hnext
            rw [collapse_run hc hin, next_eq_self hc (hrun rfl)]
            refine ⟨hnext, ?_⟩
            rintro (hfalse | htrue)
            · cases hfalse
            · cases hin.symm.trans htrue
        | false =>
            have h32 : q.next 32 = q.next c := by
              rw [next_of_blank hc, next_of_blank (by decide)]
            rw [collapse_blank hc hin, split_separator (by decide) hin, h32]
            exact ⟨hnext, fun _ => ⟨rfl, hnext⟩⟩
      · have hnext : Alike (split (q.next c) (collapse (q.next c) (isSpace c) l))
            (split (q.next c) l) := by
          refine (ih fun hc => next_escaped hc).2 ?_
          cases hc : isSpace c with
          | true =>
              refine .inr ?_
              rw [next_of_blank hc]
              exact Bool.eq_true_of_not_eq_false fun hin => hsep ⟨hc, hin⟩
          | false => exact .inl rfl
        have hcollapse : collapse q run (c :: l) = c :: collapse (q.next c) (isSpace c) l := by
          cases hc : isSpace c with
          | true =>
              exact collapse_quoted hc (Bool.eq_true_of_not_eq_false fun hin => hsep ⟨hc, hin⟩)
          | false => exact collapse_letter hc
        rw [hcollapse, split_other hsep, split_other hsep]
        have halike := hnext.modifyHead c
        exact ⟨halike.filter, fun _ => halike⟩

/-- Command lines that are the same have the same arguments. -/
theorem SameCommand.arguments_eq {a b : Str} (h : SameCommand a b) : arguments a = arguments b := by
  have ha := (@split_collapse {} true (fun _ => rfl) (strip isSpace a)).1
  have hb := (@split_collapse {} true (fun _ => rfl) (strip isSpace b)).1
  rw [arguments, arguments, ← ha, ← hb]
  exact congrArg (fun l => (split {} l).filter (! ·.isEmpty)) h

/-! ## What is launched -/

/-- What is launched is one of the operator's command lines, with its arguments. -/
def Declared (allowlist : List Str) (command : Str) : Prop :=
  ∃ a ∈ allowlist, SameCommand a command ∧ arguments a = arguments command

theorem normalize_eq (command : Str) :
    normalize_command (some command) = squeeze isSpace 32 true (strip isSpace command) :=
  unwords_words 32 command

/-- What is permitted has the words of a command line that was declared. -/
theorem exists_of_permitted {command : Option Str} {allowlist : List Str}
    (h : is_permitted command allowlist = true) :
    ∃ a ∈ allowlist, normalize_command (some a) = normalize_command command := by
  rw [is_permitted] at h
  dsimp only at h
  split_ifs at h
  obtain ⟨a, hmem, heq⟩ := List.any_eq_true.mp h
  exact ⟨a, hmem, of_decide_eq_true heq⟩

theorem normalize_strip (command : Str) :
    normalize_command (some (strip isSpace command)) = normalize_command (some command) := by
  have hwords : words isSpace (strip isSpace command) = words isSpace command :=
    (words_rdropWhile _).trans (words_dropWhile command)
  rw [normalize_command, normalize_command, hwords]

/-- The steps that lead to a launch. -/
theorem run_elevated_launched {config : RunConfig} {m : Machine} {cleared : Bool}
    {path : Option Json} {command : Str} {session : ℕ}
    (h : run_elevated config m cleared path = .launched command session) :
    path = some (.str command) ∧
      is_permitted (some (strip isSpace command)) config.elevated_allowlist = true := by
  rw [run_elevated.eq_def] at h
  by_cases hdry : config.dry_run = true
  · rw [if_pos hdry] at h
    exact nomatch h
  by_cases hread : config.read_only = true
  · rw [if_neg hdry, if_pos hread] at h
    exact nomatch h
  rw [if_neg hdry, if_neg hread] at h
  split at h
  · next path =>
      dsimp only at h
      split_ifs at h with hoff hrefused
      have hpermitted := Bool.eq_true_of_not_eq_false hrefused
      rw [run_as_system] at h
      cases hplan : plan_launch m (some path) with
      | error reason =>
          rw [hplan] at h
          exact nomatch h
      | ok session' =>
          rw [hplan] at h
          cases h
          exact ⟨rfl, hpermitted⟩
  · exact nomatch h

namespace Sample

/-- A key with one blank in its name, and the other that has two. -/
def declared : Str := .of "reg delete \"HKLM\\Old Key\" /f"

def asked : Str := .of "reg delete \"HKLM\\Old  Key\" /f"

def config : RunConfig := { dry_run := false, read_only := false, elevated_allowlist := [declared] }

def machine : Machine := { on_windows := true, elevated := true, session_id := some 1 }

end Sample

end Secdogie.Agent.Elevate
