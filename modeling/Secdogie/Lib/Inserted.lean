/-
# `Secdogie.Lib.Inserted` — inputs slipped in between

A machine answers each of its inputs.  Inputs are slipped in between those it
would get anyway; `answers_inserted` is the simulation by which those it would
get anyway are answered as if nothing had been slipped in.
-/
import Mathlib

namespace Secdogie.Inserted

variable {S E O : Type} (step : S → E → S × O)

/-- The answers to the inputs that are not slipped in, which are marked
`false`. -/
def answers (s : S) : List (Bool × E) → List O
  | [] => []
  | (true, e) :: es => answers (step s e).1 es
  | (false, e) :: es => (step s e).2 :: answers (step s e).1 es

/-- The state after all inputs. -/
def after (s : S) (es : List (Bool × E)) : S := es.foldl (fun s e => (step s e.2).1) s

/-- What is left when nothing is slipped in. -/
def originals (es : List (Bool × E)) : List (Bool × E) := es.filter (fun e => !e.1)

/-- In the run with the inputs slipped in, beside the run without: each of them
meets `skip`, and each other input meets `same`. -/
def AllMeet (skip : S → E → Prop) (same : S → S → E → Prop) (s t : S) : List (Bool × E) → Prop
  | [] => True
  | (true, e) :: es => skip s e ∧ AllMeet skip same (step s e).1 t es
  | (false, e) :: es => same s t e ∧ AllMeet skip same (step s e).1 (step t e).1 es

variable {step} {R : S → S → Prop} {skip : S → E → Prop} {same : S → S → E → Prop}

/-- Inputs slipped in keep the relation on one side, the others on both sides,
where they are answered alike. -/
theorem answers_inserted (hskip : ∀ s t e, R s t → skip s e → R (step s e).1 t)
    (hsame : ∀ s t e, R s t → same s t e →
      R (step s e).1 (step t e).1 ∧ (step s e).2 = (step t e).2) :
    ∀ (es : List (Bool × E)) (s t : S), R s t → AllMeet step skip same s t es →
      answers step s es = answers step t (originals es) ∧
        R (after step s es) (after step t (originals es))
  | [], _, _, hR, _ => ⟨rfl, hR⟩
  | (true, e) :: es, s, t, hR, hmeets =>
      answers_inserted hskip hsame es _ _ (hskip s t e hR hmeets.1) hmeets.2
  | (false, e) :: es, s, t, hR, hmeets => by
      obtain ⟨hstep, hanswer⟩ := hsame s t e hR hmeets.1
      obtain ⟨hrest, hafter⟩ := answers_inserted hskip hsame es _ _ hstep hmeets.2
      refine ⟨?_, hafter⟩
      rw [originals, List.filter_cons_of_pos rfl, answers, answers, hanswer, hrest]
      rfl

end Secdogie.Inserted
