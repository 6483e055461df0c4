/-
# `Secdogie.Graph.Plan` — what acting on a known state would be

The preview of an action: a pure function of the view, which a human signs.  A
submit goes by one of the forms that reach its target, the greatest in the
order of references, and that order begins with the state a form is on.

`submit_risk_iff`: the preview is as risky as every form that reaches the
target if and only if the greatest of them is.
-/
import Secdogie.Graph.Dag

namespace Secdogie.Graph

/-! ## The order of references -/

def Via.index : Via → Nat
  | .a => 0
  | .area => 1
  | .form => 2
  | .link => 3
  | .redirect => 4

def Method.index : Method → Nat
  | .get => 0
  | .post => 1

/-- The components of a reference, in the order they are compared. -/
def Reference.components (r : Reference) : String ×ₗ String ×ₗ Nat ×ₗ Nat ×ₗ List String :=
  toLex (r.src, toLex (r.dst, toLex (r.via.index, toLex (r.method.index, r.fields))))

theorem Reference.components_inj : Function.Injective Reference.components := by
  rintro ⟨src, dst, via, method, fields⟩ ⟨src', dst', via', method', fields'⟩ h
  simp only [components, EmbeddingLike.apply_eq_iff_eq, Prod.mk.injEq] at h
  obtain ⟨rfl, rfl, hvia, hmethod, rfl⟩ := h
  obtain rfl : via = via' := by
    cases via <;> cases via' <;> first | rfl | cases hvia
  obtain rfl : method = method' := by
    cases method <;> cases method' <;> first | rfl | cases hmethod
  rfl

/-- Lexicographic, as it is derived. -/
instance : LinearOrder Reference := LinearOrder.lift' Reference.components Reference.components_inj

/-! ## Previews -/

def DESTRUCTIVE_WORDS : List String :=
  ["delete", "remove", "destroy", "drop", "erase", "purge", "wipe", "close", "cancel", "deactivate",
    "terminate", "unsubscribe", "revoke", "删除", "注销", "销毁"]

inductive Verb where
  | navigate
  | submit
deriving DecidableEq

inductive Risk where
  | low
  | high
  | irreversible
deriving DecidableEq

def Risk.rank : Risk → Nat
  | .low => 0
  | .high => 1
  | .irreversible => 2

structure TargetAction where
  kind : String
  target_id : String
  target_role : String
  target_name : String
  text : String
  high_risk : Bool
deriving DecidableEq

structure Preview where
  target_action : TargetAction
  risk : Risk
  mutating : Bool
  method : Method
  fields : List String
  origin : String
  route : String
deriving DecidableEq

section

variable (lower : String → String)

/-- One of the words is in the text, in lower case. -/
def mentionsDestruction (s : String) : Bool :=
  DESTRUCTIVE_WORDS.any (fun w => decide (w.toList <:+: (lower s).toList))

/-- The route or a field of the form names destruction. -/
def destructive (route : String) (form : Reference) : Bool :=
  mentionsDestruction lower route || form.fields.any (mentionsDestruction lower)

/-- The risk of submitting one form. -/
def formRisk (route : String) (form : Reference) : Risk :=
  if form.method = .post ∧ destructive lower route form = true then .irreversible
  else if form.method = .post then .high
  else .low

/-- The forms that reach a state. -/
def formsTo (view : TopologyView) (state_key : String) : Finset Reference :=
  view.references.filter (fun r => r.via = .form ∧ r.dst = state_key)

def plan (view : TopologyView) (state_key : String) (verb : Verb) : Except String Preview :=
  match view.states[state_key]? with
  | none => .error "state is not in the graph: Gate 2 never signs an invented target"
  | some state =>
      let target_name := state.origin ++ state.route
      match verb with
      | .navigate =>
          .ok
            { target_action :=
                { kind := "navigate"
                  target_id := state_key
                  target_role := "link"
                  target_name
                  text := ""
                  high_risk := false }
              risk := .low
              mutating := false
              method := .get
              fields := []
              origin := state.origin
              route := state.route }
      | .submit =>
          match (formsTo view state_key).max with
          | none => .error "no form in the graph submits to this state"
          | some form =>
              let risk := formRisk lower state.route form
              .ok
                { target_action :=
                    { kind := "submit"
                      target_id := state_key
                      target_role := "form"
                      target_name
                      text := String.intercalate "," form.fields
                      high_risk := decide (risk ≠ .low) }
                  risk
                  mutating := decide (form.method = .post)
                  method := form.method
                  fields := form.fields
                  origin := state.origin
                  route := state.route }

end

/-! ## The form a submit goes by -/

section

variable {lower : String → String}

theorem formRisk_low_iff {route : String} {form : Reference} :
    formRisk lower route form = .low ↔ form.method ≠ .post := by
  rw [formRisk]
  split_ifs with hirr hpost
  · simp [hirr.1]
  · simp [hpost]
  · simp [hpost]

/-- One form is as risky as another when it posts if that does, and names
destruction if that does. -/
theorem rank_le_iff {route : String} {f m : Reference} :
    (formRisk lower route f).rank ≤ (formRisk lower route m).rank ↔
      (f.method = .post → m.method = .post ∧
        (destructive lower route f = true → destructive lower route m = true)) := by
  rw [formRisk, formRisk]
  by_cases hf : f.method = .post
  · by_cases hm : m.method = .post
    · cases hdf : destructive lower route f <;> cases hdm : destructive lower route m <;>
        simp [hf, hm, Risk.rank]
    · cases hdf : destructive lower route f <;> simp [hf, hm, Risk.rank]
  · simp [hf, Risk.rank]

/-- A submit previews the greatest form. -/
theorem plan_submit {view : TopologyView} {state_key : String} {p : Preview}
    (h : plan lower view state_key .submit = .ok p) :
    ∃ state m, view.states[state_key]? = some state ∧ m ∈ formsTo view state_key ∧
      (∀ f ∈ formsTo view state_key, f ≤ m) ∧ p.risk = formRisk lower state.route m ∧
      p.mutating = decide (m.method = .post) ∧
      p.target_action.high_risk = decide (formRisk lower state.route m ≠ .low) ∧
      p.method = m.method ∧ p.fields = m.fields := by
  rw [plan] at h
  cases hstate : view.states[state_key]? with
  | none =>
      rw [hstate] at h
      cases h
  | some state =>
      rw [hstate] at h
      dsimp only at h
      split at h
      · cases h
      · next m hmax =>
          obtain rfl := Except.ok.inj h
          refine ⟨state, m, rfl, Finset.mem_of_max hmax, fun f hf => Finset.le_max_of_eq hf hmax,
            rfl, rfl, rfl, rfl, rfl⟩

/-- The preview of a submit is mutating and of high risk if a form posts, and
as risky as every form, if and only if the greatest form is: it posts if one
does, and names destruction if one that posts does. -/
theorem submit_risk_iff (view : TopologyView) (state_key : String) (state : StateInfo) (p : Preview)
    (hstate : view.states[state_key]? = some state)
    (h : plan lower view state_key .submit = .ok p) :
    (∀ f ∈ formsTo view state_key,
      (f.method = .post → p.mutating = true ∧ p.target_action.high_risk = true) ∧
        (formRisk lower state.route f).rank ≤ p.risk.rank) ↔
      ∃ m ∈ formsTo view state_key, (∀ f ∈ formsTo view state_key, f ≤ m) ∧
        ∀ f ∈ formsTo view state_key, f.method = .post → m.method = .post ∧
          (destructive lower state.route f = true → destructive lower state.route m = true) := by
  obtain ⟨state', m, hstate', hm, hmax, hrisk, hmutating, hhigh, -, -⟩ := plan_submit h
  obtain rfl := Option.some.inj (hstate.symm.trans hstate')
  constructor
  · intro hall
    refine ⟨m, hm, hmax, fun f hf => ?_⟩
    have hle := (hall f hf).2
    rw [hrisk, rank_le_iff] at hle
    exact hle
  · rintro ⟨m', hm', hmax', hall⟩ f hf
    obtain rfl : m' = m := le_antisymm (hmax m' hm') (hmax' m hm)
    refine ⟨fun hpost => ?_, ?_⟩
    · have hpost' := (hall f hf hpost).1
      rw [hmutating, hhigh]
      exact ⟨decide_eq_true hpost', decide_eq_true fun hlow => formRisk_low_iff.mp hlow hpost'⟩
    · rw [hrisk, rank_le_iff]
      exact hall f hf

namespace Sample

def stateKeyOf (c : Char) : String := String.ofList (List.replicate 64 c)

def form (src : Char) (method : Method) (fields : List String) : Reference :=
  { src := stateKeyOf src
    dst := stateKeyOf 'c'
    via := .form
    method
    fields }

def state : StateInfo := ⟨"https://docs.example.com", "/profile", []⟩

/-- A search form on one page and, on a page of a smaller key, one that posts. -/
def masked : TopologyView :=
  { states := (∅ : StrMap StateInfo).insert (stateKeyOf 'c') state
    references := {form 'b' .get ["q"], form 'a' .post ["bio"]} }

/-- The form that posts is on the page of the greater key. -/
def shown : TopologyView :=
  { states := (∅ : StrMap StateInfo).insert (stateKeyOf 'c') state
    references := {form 'a' .get ["q"], form 'b' .post ["bio"]} }

end Sample

open Sample in
theorem submit_risk_shown : ∃ p, plan String.toLower shown (stateKeyOf 'c') .submit = .ok p ∧
    ∀ f ∈ formsTo shown (stateKeyOf 'c'),
      (f.method = .post → p.mutating = true ∧ p.target_action.high_risk = true) ∧
        (formRisk String.toLower state.route f).rank ≤ p.risk.rank := by
  have hstate : shown.states[stateKeyOf 'c']? = some state := by simp [shown]
  have hplan : ∃ p, plan String.toLower shown (stateKeyOf 'c') .submit = .ok p := by
    have hmax : (formsTo shown (stateKeyOf 'c')).max = ((form 'b' .post ["bio"] : Reference) : WithBot Reference) := by
      decide +kernel
    rw [plan, hstate]
    dsimp only
    rw [hmax]
    exact ⟨_, rfl⟩
  obtain ⟨p, hp⟩ := hplan
  refine ⟨p, hp, (submit_risk_iff shown (stateKeyOf 'c') state p hstate hp).mpr
    ⟨form 'b' .post ["bio"], ?_⟩⟩
  decide +kernel

open Sample in
/-- The form that posts is hidden behind one that does not. -/
theorem submit_hidden : ∃ p, plan String.toLower masked (stateKeyOf 'c') .submit = .ok p ∧
    form 'a' .post ["bio"] ∈ formsTo masked (stateKeyOf 'c') ∧
    p.mutating = false ∧ p.target_action.high_risk = false ∧ p.risk = .low ∧
    formRisk String.toLower state.route (form 'a' .post ["bio"]) = .high := by
  have hstate : masked.states[stateKeyOf 'c']? = some state := by simp [masked]
  have hmax : (formsTo masked (stateKeyOf 'c')).max = ((form 'b' .get ["q"] : Reference) : WithBot Reference) := by
    decide +kernel
  rw [plan, hstate]
  dsimp only
  rw [hmax]
  refine ⟨_, rfl, by decide +kernel, rfl, rfl, rfl, by decide +kernel⟩

end

end Secdogie.Graph
