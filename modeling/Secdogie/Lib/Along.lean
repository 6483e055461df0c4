/-
# `Secdogie.Lib.Along` — what every step of a run meets

A run is a list of events, taken one after the other from a state.  A property
of states and events holds along a run if each event meets it in the state it
comes upon.  Two properties that agree wherever an invariant holds, agree along
every run that starts with it.
-/
import Mathlib

namespace Secdogie.Along

variable {S E : Type*} (step : S → E → S)

/-- Every event meets `ok` in the state it comes upon. -/
def All (ok : S → E → Prop) : S → List E → Prop
  | _, [] => True
  | s, e :: es => ok s e ∧ All ok (step s e) es

variable {step}

theorem all_append {ok : S → E → Prop} : ∀ {es es' : List E} {s : S},
    All step ok s (es ++ es') ↔ All step ok s es ∧ All step ok (es.foldl step s) es'
  | [], _, _ => by rw [List.nil_append, All, true_and, List.foldl_nil]
  | e :: es, es', s => by
      rw [List.cons_append, All, all_append, List.foldl_cons, All, and_assoc]

theorem all_concat {ok : S → E → Prop} {es : List E} {e : E} {s : S} :
    All step ok s (es ++ [e]) ↔ All step ok s es ∧ ok (es.foldl step s) e := by
  rw [all_append, All, All, and_true]

/-- An invariant holds after every run. -/
theorem inv_foldl {inv : S → Prop} (hstep : ∀ s e, inv s → inv (step s e)) : ∀ (es : List E) {s : S},
    inv s → inv (es.foldl step s)
  | [], _, h => h
  | e :: es, s, h => inv_foldl hstep es (hstep s e h)

/-- Properties that agree under an invariant agree along every run. -/
theorem all_congr {inv : S → Prop} {ok ok' : S → E → Prop} (hstep : ∀ s e, inv s → inv (step s e))
    (hok : ∀ s e, inv s → (ok s e ↔ ok' s e)) : ∀ (es : List E) {s : S}, inv s →
      (All step ok s es ↔ All step ok' s es)
  | [], _, _ => Iff.rfl
  | e :: es, s, h => and_congr (hok s e h) (all_congr hstep hok es (hstep s e h))

/-! ## Steps that can fail -/

variable {ε : Type*} {tryStep : S → E → Except ε S}

/-- An invariant of the steps that succeed holds after a run that succeeds. -/
theorem inv_foldlM {inv : S → Prop} : ∀ {es : List E} {s s' : S},
    (∀ e ∈ es, ∀ s s', inv s → tryStep s e = .ok s' → inv s') → es.foldlM tryStep s = .ok s' →
      inv s → inv s'
  | [], _, _, _, h, hs => Except.ok.inj h ▸ hs
  | e :: es, s, s', hstep, h, hs => by
      rw [List.foldlM_cons] at h
      cases hone : tryStep s e with
      | error why => rw [hone] at h; exact nomatch h
      | ok next =>
          rw [hone] at h
          exact inv_foldlM (fun e' he' => hstep e' (List.mem_cons_of_mem e he')) h
            (hstep e List.mem_cons_self s next hs hone)

/-- A run fails as one of its steps does. -/
theorem error_foldlM {P : ε → Prop} (hstep : ∀ s e why, tryStep s e = .error why → P why) :
    ∀ {es : List E} {s : S} {why : ε}, es.foldlM tryStep s = .error why → P why
  | [], _, _, h => nomatch h
  | e :: es, s, why, h => by
      rw [List.foldlM_cons] at h
      cases hone : tryStep s e with
      | error why' =>
          rw [hone] at h
          exact Except.error.inj h ▸ hstep s e why' hone
      | ok next =>
          rw [hone] at h
          exact error_foldlM hstep h

end Secdogie.Along
