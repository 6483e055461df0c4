/-
# `Secdogie.Agent.FocusNav` — reaching an element by the keyboard

The walk presses a key for as long as the focus lands on stops that it has not
seen, and then the next key.  It drives a ring, of which it knows only what
the two calls return.  `logged` keeps the calls beside the ring, and what the
walk reports is compared with them.

A key that is delivered and moves nothing is reported like a ring that
wrapped, so `reports_iff` asks that there is no such walk (`Still`).
-/
import Secdogie.Agent.AxTree

namespace Secdogie.Agent

/-- What identifies a focus stop: role, name and automation id. -/
abbrev FocusKey := String × String × String

def AxElement.focusKey (el : AxElement) : FocusKey := (el.role, el.name, el.automation_id)

namespace FocusNav

/-- The two callables, over whatever they depend on. -/
structure Ring (σ : Type) where
  read_focus : σ → Option AxElement × σ
  /-- whether the key was delivered -/
  send_key : String → σ → Bool × σ

inductive Outcome where
  | already | reached | cycled | exhausted | no_focus | stuck
deriving DecidableEq

structure FocusResult where
  outcome : Outcome
  focused : Option AxElement
  steps : ℕ
  path : List FocusKey := []

/-- The variables of the walk, and the ring beside them. -/
structure Walk (σ : Type) where
  ring : σ
  focused : AxElement
  seen : List FocusKey
  path : List FocusKey
  steps : ℕ

variable {σ : Type} (R : Ring σ) (target : AxElement → Bool)

/-- The `while` loop over one key, for at most as many steps as are left. -/
def press (key : String) : ℕ → Walk σ → (FocusResult × σ) ⊕ Walk σ
  | 0, w => .inr w
  | n + 1, w =>
      match R.send_key key w.ring with
      | (false, s) => .inr { w with ring := s }
      | (true, s) =>
          match R.read_focus s with
          | (none, s) => .inl (⟨.no_focus, none, w.steps + 1, w.path⟩, s)
          | (some moved, s) =>
              let k := moved.focusKey
              if target moved then
                .inl (⟨.reached, some moved, w.steps + 1, w.path ++ [k]⟩, s)
              else if k ∈ w.seen then
                .inr { w with ring := s, focused := moved, steps := w.steps + 1 }
              else
                press key n
                  { ring := s, focused := moved, seen := k :: w.seen, path := w.path ++ [k],
                    steps := w.steps + 1 }

/-- The `for` loop over the keys. -/
def pressAll (max_steps : ℤ) : List String → Walk σ → FocusResult × σ
  | [], w => (⟨if w.steps = 0 then .stuck else .cycled, some w.focused, w.steps, w.path⟩, w.ring)
  | key :: keys, w =>
      match press R target key (max_steps - w.steps).toNat w with
      | .inl result => result
      | .inr w =>
          if max_steps ≤ w.steps then (⟨.exhausted, some w.focused, w.steps, w.path⟩, w.ring)
          else pressAll max_steps keys w

/-- `navigate_to`; `none` if it raises. -/
def navigate_to (keys : List String) (max_steps : ℤ) (s : σ) : Option (FocusResult × σ) :=
  if keys = [] then none
  else
    match R.read_focus s with
    | (none, s) => some (⟨.no_focus, none, 0, []⟩, s)
    | (some focused, s) =>
        if target focused then some (⟨.already, some focused, 0, [focused.focusKey]⟩, s)
        else
          some <| pressAll R target max_steps keys
            { ring := s, focused, seen := [focused.focusKey], path := [focused.focusKey],
              steps := 0 }

/-! ## The calls -/

inductive Call where
  | read (focused : Option AxElement)
  | send (key : String) (delivered : Bool)

/-- The ring, with the calls that were made of it. -/
def Ring.logged (R : Ring σ) : Ring (σ × List Call) where
  read_focus := fun (s, log) =>
    let (focused, s) := R.read_focus s
    (focused, s, log ++ [Call.read focused])
  send_key := fun key (s, log) =>
    let (delivered, s) := R.send_key key s
    (delivered, s, log ++ [Call.send key delivered])

/-- The keys that were delivered. -/
def delivered (log : List Call) : List String :=
  log.filterMap fun
    | .send key true => some key
    | _ => none

/-- What the focus was read as, each time. -/
def reads (log : List Call) : List (Option AxElement) :=
  log.filterMap fun
    | .read focused => some focused
    | _ => none

/-- A stop that was read. -/
def Visited (log : List Call) (k : FocusKey) : Prop :=
  ∃ el, some el ∈ reads log ∧ el.focusKey = k

/-- Some read after the first was of another stop than the first. -/
def Moved (log : List Call) : Prop :=
  ∃ start after, reads log = some start :: after ∧
    ∃ el, some el ∈ after ∧ el.focusKey ≠ start.focusKey

/-- Each key was pressed until the focus came to a stop that was visited, or the key was not
delivered; the calls from one log to another. -/
inductive Walked : List String → List Call → List Call → Prop
  | nil (log : List Call) : Walked [] log log
  | undelivered {key : String} {keys : List String} {log log' : List Call} :
      Walked keys (log ++ [Call.send key false]) log' → Walked (key :: keys) log log'
  | repeated {key : String} {keys : List String} {log log' : List Call} (el : AxElement) :
      Visited log el.focusKey → Walked keys (log ++ [Call.send key true, .read (some el)]) log' →
      Walked (key :: keys) log log'
  | fresh {key : String} {keys : List String} {log log' : List Call} (el : AxElement) :
      ¬ Visited log el.focusKey →
      Walked (key :: keys) (log ++ [Call.send key true, .read (some el)]) log' →
      Walked (key :: keys) log log'

/-- What a walk reports is what its calls show. -/
structure Reports (keys : List String) (max_steps : ℤ) (result : FocusResult) (log : List Call) :
    Prop where
  few : ((delivered log).length : ℤ) ≤ max 0 max_steps
  listed : ∀ key d, .send key d ∈ log → key ∈ keys
  stops : ∀ before el after, log = before ++ .read (some el) :: after → target el = true →
    after = []
  found : result.outcome = .already ∨ result.outcome = .reached ↔
    ∃ el, (reads log).getLast? = some (some el) ∧ target el = true
  blind : result.outcome = .no_focus ↔ (reads log).getLast? = some none
  /-- when the keys are spent -/
  stuck : result.outcome = .stuck ∨ result.outcome = .cycled →
    (result.outcome = .stuck ↔ ¬ Moved log)
  cycled : result.outcome = .cycled → Moved log ∧ ∃ start, Walked keys [Call.read (some start)] log

/-- Each key, pressed once in its turn, is not delivered or leaves the focus where it is; so many
are delivered. -/
inductive Still (start : AxElement) : List String → σ → ℕ → Prop
  | nil (s : σ) : Still start [] s 0
  | undelivered {key : String} {keys : List String} {s s' : σ} {n : ℕ} :
      R.send_key key s = (false, s') → Still start keys s' n → Still start (key :: keys) s n
  | stays {key : String} {keys : List String} {s s' s'' : σ} {n : ℕ} (el : AxElement) :
      R.send_key key s = (true, s') → R.read_focus s' = (some el, s'') → target el = false →
      el.focusKey = start.focusKey → Still start keys s'' n → Still start (key :: keys) s (n + 1)

/-! ## Logs that grow -/

section

variable {log : List Call} {key : String} {d : Bool} {r : Option AxElement} {k : FocusKey}

@[simp] theorem reads_send : reads (log ++ [Call.send key d]) = reads log := by simp [reads]

@[simp] theorem reads_read : reads (log ++ [Call.read r]) = reads log ++ [r] := by simp [reads]

@[simp] theorem delivered_read : delivered (log ++ [Call.read r]) = delivered log := by simp [delivered]

@[simp] theorem delivered_send :
    delivered (log ++ [Call.send key d]) = delivered log ++ if d then [key] else [] := by
  cases d <;> simp [delivered]

theorem visited_read {el : AxElement} :
    Visited (log ++ [Call.read (some el)]) k ↔ k = el.focusKey ∨ Visited log k := by
  rw [Visited, Visited, reads_read]
  constructor
  · rintro ⟨el', hmem, rfl⟩
    rcases List.mem_append.mp hmem with hold | hnew
    · exact .inr ⟨el', hold, rfl⟩
    · exact .inl (Option.some.inj (List.mem_singleton.mp hnew) ▸ rfl)
  · rintro (rfl | ⟨el', hmem, rfl⟩)
    · exact ⟨el, List.mem_append_right _ List.mem_cons_self, rfl⟩
    · exact ⟨el', List.mem_append_left _ hmem, rfl⟩

theorem visited_send : Visited (log ++ [Call.send key d]) k ↔ Visited log k := by
  rw [Visited, Visited, reads_send]

/-- What has moved stays moved, however the log goes on. -/
theorem Moved.append {log' : List Call} (h : Moved log) : Moved (log ++ log') := by
  obtain ⟨start, after, hreads, el, hmem, hne⟩ := h
  have happend : reads (log ++ log') = reads log ++ reads log' := List.filterMap_append
  refine ⟨start, after ++ reads log', ?_, el, List.mem_append_left _ hmem, hne⟩
  rw [happend, hreads, List.cons_append]

end

/-! ## The walk, as far as it has come -/

variable {R target}

/-- What holds at the head of the loops. -/
structure At (target : AxElement → Bool) (start : AxElement) (keys : List String) (max_steps : ℤ)
    (w : Walk (σ × List Call)) : Prop where
  first : ∃ after, reads w.ring.2 = some start :: after
  clear : ∀ r ∈ reads w.ring.2, ∃ el, r = some el ∧ target el = false
  seen : ∀ k, k ∈ w.seen ↔ Visited w.ring.2 k
  steps : (delivered w.ring.2).length = w.steps
  length : (reads w.ring.2).length = w.steps + 1
  few : (w.steps : ℤ) ≤ max 0 max_steps
  listed : ∀ key d, .send key d ∈ w.ring.2 → key ∈ keys

variable {start : AxElement} {keys : List String} {max_steps : ℤ} {w : Walk (σ × List Call)}
  {key : String}

/-- A key that is not delivered. -/
theorem At.undelivered (h : At target start keys max_steps w) (hkey : key ∈ keys) (s : σ) :
    At target start keys max_steps { w with ring := (s, w.ring.2 ++ [Call.send key false]) } := by
  refine ⟨?_, ?_, fun k => ?_, ?_, ?_, h.few, fun key' d hmem => ?_⟩
  · dsimp only
    rw [reads_send]
    exact h.first
  · dsimp only
    rw [reads_send]
    exact h.clear
  · exact (h.seen k).trans visited_send.symm
  · dsimp only
    rw [delivered_send]
    exact (congrArg List.length (List.append_nil _)).trans h.steps
  · dsimp only
    rw [reads_send]
    exact h.length
  · rcases List.mem_append.mp hmem with hold | hnew
    · exact h.listed key' d hold
    · obtain ⟨rfl, -⟩ := Call.send.inj (List.mem_singleton.mp hnew)
      exact hkey

/-- A key that is delivered, and a stop that is not the target. -/
theorem At.delivered (h : At target start keys max_steps w) (hkey : key ∈ keys) {moved : AxElement}
    (hmoved : target moved = false) (hfew : ((w.steps : ℤ) + 1) ≤ max 0 max_steps) {s : σ}
    {seen path : List FocusKey} (hseen : ∀ k, k ∈ seen ↔ k = moved.focusKey ∨ k ∈ w.seen) :
    At target start keys max_steps
      { ring := (s, w.ring.2 ++ [Call.send key true] ++ [Call.read (some moved)]), focused := moved,
        seen, path, steps := w.steps + 1 } := by
  obtain ⟨after, hfirst⟩ := h.first
  refine ⟨⟨after ++ [some moved], ?_⟩, ?_, fun k => ?_, ?_, ?_, ?_, fun key' d hmem => ?_⟩
  · dsimp only
    rw [reads_read, reads_send, hfirst, List.cons_append]
  · dsimp only
    rw [reads_read, reads_send]
    intro r hr
    rcases List.mem_append.mp hr with hold | hnew
    · exact h.clear r hold
    · exact ⟨moved, List.mem_singleton.mp hnew, hmoved⟩
  · dsimp only
    rw [hseen, visited_read, visited_send, h.seen]
  · dsimp only
    rw [delivered_read, delivered_send, List.length_append, h.steps]
    rfl
  · dsimp only
    rw [reads_read, reads_send, List.length_append, h.length]
    rfl
  · rw [Nat.cast_add, Nat.cast_one]
    exact hfew
  · rcases List.mem_append.mp hmem with hsent | hread
    · rcases List.mem_append.mp hsent with hold | hnew
      · exact h.listed key' d hold
      · obtain ⟨rfl, -⟩ := Call.send.inj (List.mem_singleton.mp hnew)
        exact hkey
    · exact nomatch List.mem_singleton.mp hread

/-- What one press of the loop does, in a walk that is logged. -/
inductive Pressed (R : Ring σ) (target : AxElement → Bool) (key : String)
    (w : Walk (σ × List Call)) :
    ℕ → (FocusResult × σ × List Call) ⊕ Walk (σ × List Call) → Prop
  | spent : Pressed R target key w 0 (.inr w)
  | undelivered {n : ℕ} (s : σ) : R.send_key key w.ring.1 = (false, s) →
      Pressed R target key w (n + 1) (.inr { w with ring := (s, w.ring.2 ++ [Call.send key false]) })
  | blind {n : ℕ} (s : σ) : Pressed R target key w (n + 1)
      (.inl (⟨.no_focus, none, w.steps + 1, w.path⟩, s,
        w.ring.2 ++ [Call.send key true] ++ [Call.read none]))
  | reached {n : ℕ} (s : σ) (moved : AxElement) (path : List FocusKey) : target moved = true →
      Pressed R target key w (n + 1)
        (.inl (⟨.reached, some moved, w.steps + 1, path⟩, s,
          w.ring.2 ++ [Call.send key true] ++ [Call.read (some moved)]))
  | repeated {n : ℕ} (s s' : σ) (moved : AxElement) : R.send_key key w.ring.1 = (true, s) →
      R.read_focus s = (some moved, s') → target moved = false → moved.focusKey ∈ w.seen →
      Pressed R target key w (n + 1)
        (.inr { w with ring := (s', w.ring.2 ++ [Call.send key true] ++ [Call.read (some moved)]),
                       focused := moved, steps := w.steps + 1 })
  | fresh {n : ℕ} (s : σ) (moved : AxElement) (path : List FocusKey)
      (res : (FocusResult × σ × List Call) ⊕ Walk (σ × List Call)) :
      target moved = false → moved.focusKey ∉ w.seen →
      res = press R.logged target key n
        { ring := (s, w.ring.2 ++ [Call.send key true] ++ [Call.read (some moved)]), focused := moved,
          seen := moved.focusKey :: w.seen, path, steps := w.steps + 1 } →
      Pressed R target key w (n + 1) res

theorem pressed (n : ℕ) : Pressed R target key w n (press R.logged target key n w) := by
  cases n with
  | zero => exact .spent
  | succ n =>
      rw [press]
      cases hsend : R.send_key key w.ring.1 with
      | mk d s =>
          have hlogged : R.logged.send_key key w.ring = (d, s, w.ring.2 ++ [Call.send key d]) := by
            simp only [Ring.logged, hsend]
          rw [hlogged]
          cases d with
          | false => exact .undelivered s hsend
          | true =>
              dsimp only
              cases hread : R.read_focus s with
              | mk focused s' =>
                  have hlogged : R.logged.read_focus (s, w.ring.2 ++ [Call.send key true]) =
                      (focused, s', w.ring.2 ++ [Call.send key true] ++ [Call.read focused]) := by
                    simp only [Ring.logged, hread]
                  rw [hlogged]
                  cases focused with
                  | none => exact .blind s'
                  | some moved =>
                      dsimp only
                      cases hmoved : target moved with
                      | true =>
                          rw [if_pos rfl]
                          exact .reached s' moved _ hmoved
                      | false =>
                          rw [if_neg Bool.false_ne_true]
                          by_cases hseen : moved.focusKey ∈ w.seen
                          · rw [if_pos hseen]
                            exact .repeated s s' moved hsend hread hmoved hseen
                          · rw [if_neg hseen]
                            exact .fresh s' moved _ _ hmoved hseen rfl

/-! ## What a press leaves -/

/-- Nothing was read past a stop that is the target: whatever ends the log, all reads before it
were clear. -/
theorem At.stops (h : At target start keys max_steps w) (c : Call) {before after : List Call}
    {el : AxElement}
    (hlog : w.ring.2 ++ [Call.send key true] ++ [c] = before ++ .read (some el) :: after)
    (hel : target el = true) : after = [] := by
  rcases List.eq_nil_or_concat after with rfl | ⟨after, c', rfl⟩
  · rfl
  · rw [List.concat_eq_append, ← List.cons_append, ← List.append_assoc] at hlog
    have hmem : .read (some el) ∈ w.ring.2 ++ [Call.send key true] := by
      rw [(List.append_inj' hlog rfl).1]
      exact List.mem_append_right _ List.mem_cons_self
    have hread : some el ∈ reads (w.ring.2 ++ [Call.send key true]) :=
      List.mem_filterMap.mpr ⟨_, hmem, rfl⟩
    rw [reads_send] at hread
    obtain ⟨el', heq, hclear⟩ := h.clear _ hread
    cases heq
    rw [hel] at hclear
    exact nomatch hclear

theorem At.reads_clear (h : At target start keys max_steps w) {before after : List Call}
    {el : AxElement} (hlog : w.ring.2 = before ++ .read (some el) :: after) :
    target el = false := by
  have hread : some el ∈ reads w.ring.2 := by
    rw [hlog]
    exact List.mem_filterMap.mpr ⟨_, List.mem_append_right _ List.mem_cons_self, rfl⟩
  obtain ⟨el', heq, hclear⟩ := h.clear _ hread
  cases heq
  exact hclear

theorem At.few_sent (h : At target start keys max_steps w) (r : Option AxElement)
    (hfew : ((w.steps : ℤ) + 1) ≤ max 0 max_steps) :
    ((FocusNav.delivered (w.ring.2 ++ [Call.send key true] ++ [Call.read r])).length : ℤ) ≤
      max 0 max_steps := by
  rw [delivered_read, delivered_send, List.length_append, h.steps]
  exact hfew

theorem At.listed_sent (h : At target start keys max_steps w) (hkey : key ∈ keys)
    (r : Option AxElement) (key' : String) (d : Bool)
    (hmem : .send key' d ∈ w.ring.2 ++ [Call.send key true] ++ [Call.read r]) : key' ∈ keys := by
  rcases List.mem_append.mp hmem with hsent | hread
  · rcases List.mem_append.mp hsent with hold | hnew
    · exact h.listed key' d hold
    · obtain ⟨rfl, -⟩ := Call.send.inj (List.mem_singleton.mp hnew)
      exact hkey
  · exact nomatch List.mem_singleton.mp hread

theorem last_read (log : List Call) (r : Option AxElement) :
    (reads (log ++ [Call.send key true] ++ [Call.read r])).getLast? = some r := by
  rw [reads_read, List.getLast?_append]
  rfl

theorem At.blind (h : At target start keys max_steps w) (hkey : key ∈ keys)
    (hfew : ((w.steps : ℤ) + 1) ≤ max 0 max_steps) (focused : Option AxElement) (steps : ℕ)
    (path : List FocusKey) :
    Reports target keys max_steps ⟨.no_focus, focused, steps, path⟩
      (w.ring.2 ++ [Call.send key true] ++ [Call.read none]) where
  few := h.few_sent none hfew
  listed := h.listed_sent hkey none
  stops := fun _ _ _ hlog hel => h.stops _ hlog hel
  found := by
    rw [last_read]
    constructor
    · rintro (hout | hout) <;> exact nomatch hout
    · rintro ⟨el, heq, -⟩
      exact nomatch heq
  blind := by
    rw [last_read]
    exact ⟨fun _ => rfl, fun _ => rfl⟩
  stuck := by
    rintro (hout | hout) <;> exact nomatch hout
  cycled := fun hout => nomatch hout

theorem At.reached (h : At target start keys max_steps w) (hkey : key ∈ keys)
    (hfew : ((w.steps : ℤ) + 1) ≤ max 0 max_steps) {moved : AxElement}
    (hmoved : target moved = true) (focused : Option AxElement) (steps : ℕ) (path : List FocusKey) :
    Reports target keys max_steps ⟨.reached, focused, steps, path⟩
      (w.ring.2 ++ [Call.send key true] ++ [Call.read (some moved)]) where
  few := h.few_sent _ hfew
  listed := h.listed_sent hkey _
  stops := fun _ _ _ hlog hel => h.stops _ hlog hel
  found := by
    rw [last_read]
    exact ⟨fun _ => ⟨moved, rfl, hmoved⟩, fun _ => .inr rfl⟩
  blind := by
    rw [last_read]
    constructor <;> intro heq <;> exact nomatch heq
  stuck := by
    rintro (hout | hout) <;> exact nomatch hout
  cycled := fun hout => nomatch hout

/-- A walk that ends at the head of the loops read a stop that is not the target. -/
theorem At.last (h : At target start keys max_steps w) :
    ∃ el, (reads w.ring.2).getLast? = some (some el) ∧ target el = false := by
  obtain ⟨after, hfirst⟩ := h.first
  have hne : reads w.ring.2 ≠ [] := by
    rw [hfirst]
    exact List.cons_ne_nil _ _
  obtain ⟨el, heq, hclear⟩ := h.clear _ (List.getLast_mem hne)
  exact ⟨el, by rw [List.getLast?_eq_some_getLast hne, heq], hclear⟩

/-- The report of a walk that ends at the head of the loops; what it says of the ring is left. -/
theorem At.reports (h : At target start keys max_steps w) {result : FocusResult}
    (hfound : result.outcome ≠ .already ∧ result.outcome ≠ .reached ∧ result.outcome ≠ .no_focus)
    (hstuck : result.outcome = .stuck ∨ result.outcome = .cycled →
      (result.outcome = .stuck ↔ ¬ Moved w.ring.2))
    (hcycled : result.outcome = .cycled →
      Moved w.ring.2 ∧ ∃ start, Walked keys [Call.read (some start)] w.ring.2) :
    Reports target keys max_steps result w.ring.2 where
  few := by
    rw [h.steps]
    exact h.few
  listed := h.listed
  stops := by
    intro before el after hlog hel
    rw [h.reads_clear hlog] at hel
    exact nomatch hel
  found := by
    obtain ⟨el, hlast, hclear⟩ := h.last
    constructor
    · rintro (hout | hout)
      · exact absurd hout hfound.1
      · exact absurd hout hfound.2.1
    · rintro ⟨el', heq, hel⟩
      rw [hlast] at heq
      cases heq
      rw [hclear] at hel
      exact nomatch hel
  blind := by
    obtain ⟨el, hlast, -⟩ := h.last
    rw [hlast]
    exact ⟨fun hout => absurd hout hfound.2.2, fun heq => nomatch heq⟩
  stuck := hstuck
  cycled := hcycled

/-- By induction on the steps that are left: the loop over one key ends the walk with a true
report, or comes back to its head with the key walked or the steps spent. -/
theorem At.press (h : At target start keys max_steps w) (hkey : key ∈ keys) {n : ℕ}
    (hn : n = (max_steps - w.steps).toNat) :
    (∃ result s log, press R.logged target key n w = .inl (result, s, log) ∧
      Reports target keys max_steps result log ∧
      (result.outcome = .reached ∨ result.outcome = .no_focus)) ∨
    ∃ w', press R.logged target key n w = .inr w' ∧ At target start keys max_steps w' ∧
      (max_steps ≤ w'.steps ∨
        ∀ keys log, Walked keys w'.ring.2 log → Walked (key :: keys) w.ring.2 log) := by
  induction n generalizing w with
  | zero =>
      refine .inr ⟨w, rfl, h, .inl ?_⟩
      omega
  | succ n ih =>
      have hfew : ((w.steps : ℤ) + 1) ≤ max 0 max_steps := by omega
      have hcases := @pressed σ R target w key (n + 1)
      generalize FocusNav.press R.logged target key (n + 1) w = res at hcases ⊢
      cases hcases with
      | undelivered s _ =>
          exact .inr ⟨_, rfl, h.undelivered hkey s, .inr fun _ _ hwalked => .undelivered hwalked⟩
      | blind s => exact .inl ⟨_, s, _, rfl, h.blind hkey hfew _ _ _, .inr rfl⟩
      | reached s moved path hmoved =>
          exact .inl ⟨_, s, _, rfl, h.reached hkey hfew hmoved _ _ _, .inl rfl⟩
      | repeated s s' moved _ _ hmoved hseen =>
          have hsame : ∀ k, k ∈ w.seen ↔ k = moved.focusKey ∨ k ∈ w.seen := by
            intro k
            exact ⟨.inr, fun hor => hor.elim (fun heq => heq ▸ hseen) id⟩
          refine .inr ⟨_, rfl, h.delivered hkey hmoved hfew hsame, .inr fun keys log hwalked => ?_⟩
          rw [List.append_assoc] at hwalked
          exact .repeated moved ((h.seen _).mp hseen) hwalked
      | fresh s moved path res hmoved hseen hres =>
          have hcons : ∀ k, k ∈ moved.focusKey :: w.seen ↔ k = moved.focusKey ∨ k ∈ w.seen :=
            fun k => List.mem_cons
          have hat := @At.delivered σ target start keys max_steps w key h hkey moved hmoved hfew s _ path hcons
          rcases ih hat (by dsimp only; omega) with hended | ⟨w', hw', hat', hwalked⟩
          · rw [hres]
            exact .inl hended
          · refine .inr ⟨w', hres.trans hw', hat',
              hwalked.imp_right fun hwalked keys log hrest => ?_⟩
            have hnext := hwalked keys log hrest
            rw [List.append_assoc] at hnext
            exact .fresh moved (fun hvisited => hseen ((h.seen _).mpr hvisited)) hnext

/-- How the walk over the keys ends: with a true report, or at the head of the loops with all of
them walked. -/
theorem At.pressAll (keys' : List String) (hkeys : ∀ key ∈ keys', key ∈ keys)
    (h : At target start keys max_steps w) {result : FocusResult} {s : σ} {log : List Call}
    (hall : FocusNav.pressAll R.logged target max_steps keys' w = (result, s, log)) :
    (Reports target keys max_steps result log ∧ result.outcome ≠ .stuck ∧
      result.outcome ≠ .cycled) ∨
    ∃ w', At target start keys max_steps w' ∧ w'.ring = (s, log) ∧
      result.outcome = (if w'.steps = 0 then .stuck else .cycled) ∧ result.steps = w'.steps ∧
      Walked keys' w.ring.2 log := by
  induction keys' generalizing w with
  | nil =>
      rw [FocusNav.pressAll, Prod.mk.injEq] at hall
      obtain ⟨rfl, hring⟩ := hall
      refine .inr ⟨w, h, hring, rfl, rfl, ?_⟩
      rw [hring]
      exact .nil log
  | cons key keys' ih =>
      have hkey : key ∈ keys := hkeys key List.mem_cons_self
      have hkeys' : ∀ key ∈ keys', key ∈ keys :=
        fun key hmem => hkeys key (List.mem_cons_of_mem _ hmem)
      rw [FocusNav.pressAll] at hall
      rcases h.press (R := R) hkey rfl with ⟨result', s', log', hpress, hreports, hout⟩ |
        ⟨w', hpress, hat, hwalked⟩
      · rw [hpress] at hall
        cases hall
        refine .inl ⟨hreports, fun heq => ?_, fun heq => ?_⟩ <;>
          rcases hout with hout | hout <;> exact nomatch heq.symm.trans hout
      · rw [hpress] at hall
        dsimp only at hall
        by_cases hspent : max_steps ≤ w'.steps
        · rw [if_pos hspent, Prod.mk.injEq] at hall
          obtain ⟨rfl, hring⟩ := hall
          have hlog : w'.ring.2 = log := congrArg Prod.snd hring
          have hreports : Reports target keys max_steps
              ⟨.exhausted, some w'.focused, w'.steps, w'.path⟩ w'.ring.2 := by
            refine hat.reports ⟨?_, ?_, ?_⟩ ?_ ?_
            · exact nofun
            · exact nofun
            · exact nofun
            · rintro (hout | hout) <;> exact nomatch hout
            · exact nofun
          rw [hlog] at hreports
          exact .inl ⟨hreports, nofun, nofun⟩
        · rw [if_neg hspent] at hall
          rcases ih hkeys' hat hall with hended | ⟨w'', hat', hring, hout, hsteps, hrest⟩
          · exact .inl hended
          · rcases hwalked with hle | hwalked
            · exact absurd hle hspent
            · exact .inr ⟨w'', hat', hring, hout, hsteps, hwalked keys' log hrest⟩

/-! ## A ring that does not move -/

/-- A walk that has moved ends as one. -/
theorem press_moved (key : String) (n : ℕ) (hmoved : Moved w.ring.2) :
    match press R.logged target key n w with
    | .inl (_, _, log) => Moved log
    | .inr w' => Moved w'.ring.2 := by
  induction n generalizing w with
  | zero => exact hmoved
  | succ n ih =>
      have hcases := @pressed σ R target w key (n + 1)
      generalize press R.logged target key (n + 1) w = res at hcases ⊢
      cases hcases with
      | undelivered s _ => exact hmoved.append
      | blind s => exact hmoved.append.append
      | reached s moved path _ => exact hmoved.append.append
      | repeated s s' moved _ _ _ _ => exact hmoved.append.append
      | fresh s moved path res _ _ hres =>
          rw [hres]
          exact ih hmoved.append.append

theorem pressAll_moved (keys : List String) (hmoved : Moved w.ring.2) :
    Moved (pressAll R.logged target max_steps keys w).2.2 := by
  induction keys generalizing w with
  | nil => exact hmoved
  | cons key keys ih =>
      have hpress := @press_moved σ R target w key (max_steps - w.steps).toNat hmoved
      rw [pressAll]
      cases hcase : press R.logged target key (max_steps - w.steps).toNat w with
      | inl ended =>
          rw [hcase] at hpress
          exact hpress
      | inr w' =>
          rw [hcase] at hpress
          dsimp only
          by_cases hspent : max_steps ≤ w'.steps
          · rw [if_pos hspent]
            exact hpress
          · rw [if_neg hspent]
            exact ih hpress

theorem At.moves (h : At target start keys max_steps w) (key : String) {moved : AxElement}
    (hne : moved.focusKey ≠ start.focusKey) :
    Moved (w.ring.2 ++ [Call.send key true] ++ [Call.read (some moved)]) := by
  obtain ⟨after, hfirst⟩ := h.first
  refine ⟨start, after ++ [some moved], ?_, moved, List.mem_append_right _ List.mem_cons_self, hne⟩
  rw [reads_read, reads_send, hfirst, List.cons_append]

theorem At.unmoved (h : At target start keys max_steps w) (hzero : w.steps = 0) :
    ¬ Moved w.ring.2 := by
  rintro ⟨first, after, hreads, el, hmem, -⟩
  have hlength := h.length
  rw [hreads, List.length_cons, hzero] at hlength
  rw [List.eq_nil_of_length_eq_zero (Nat.succ.inj hlength)] at hmem
  exact nomatch hmem

theorem At.start_seen (h : At target start keys max_steps w) : start.focusKey ∈ w.seen := by
  obtain ⟨after, hfirst⟩ := h.first
  rw [h.seen]
  exact ⟨start, hfirst ▸ List.mem_cons_self, rfl⟩

/-- A press that leaves the walk unmoved. -/
theorem At.press_still (h : At target start keys max_steps w) (n : ℕ)
    {w' : Walk (σ × List Call)}
    (hpress : FocusNav.press R.logged target key (n + 1) w = .inr w') (hmoved : ¬ Moved w'.ring.2) :
    (R.send_key key w.ring.1 = (false, w'.ring.1) ∧ w'.steps = w.steps) ∨
    ∃ s moved, R.send_key key w.ring.1 = (true, s) ∧ R.read_focus s = (some moved, w'.ring.1) ∧
      target moved = false ∧ moved.focusKey = start.focusKey ∧ w'.steps = w.steps + 1 := by
  have hcases := @pressed σ R target w key (n + 1)
  rw [hpress] at hcases
  generalize hres : Sum.inr w' = res at hcases
  cases hcases with
  | undelivered s hsend =>
      cases hres
      exact .inl ⟨hsend, rfl⟩
  | blind s => cases hres
  | reached s moved path _ => cases hres
  | repeated s s' moved hsend hread hclear _ =>
      cases hres
      refine .inr ⟨s, moved, hsend, hread, hclear, ?_, rfl⟩
      by_contra hne
      exact hmoved (h.moves key hne)
  | fresh s moved path res _ hseen hfresh =>
      cases hres
      have hstart : moved.focusKey ≠ start.focusKey := fun heq => hseen (heq ▸ h.start_seen)
      have hmoves := @press_moved σ R target
        { ring := (s, w.ring.2 ++ [Call.send key true] ++ [Call.read (some moved)]), focused := moved,
          seen := moved.focusKey :: w.seen, path, steps := w.steps + 1 } key n (h.moves key hstart)
      rw [← hfresh] at hmoves
      exact absurd hmoves hmoved

/-- A walk that spends its keys and does not move has pressed each of them once at most. -/
theorem At.still (keys' : List String) (hkeys : ∀ key ∈ keys', key ∈ keys)
    (h : At target start keys max_steps w) {result : FocusResult} {s : σ} {log : List Call}
    (hall : FocusNav.pressAll R.logged target max_steps keys' w = (result, s, log))
    (hout : result.outcome = .stuck ∨ result.outcome = .cycled) (hmoved : ¬ Moved log) :
    ∃ n, Still R target start keys' w.ring.1 n ∧ result.steps = w.steps + n ∧
      (keys' ≠ [] → ((w.steps + n : ℕ) : ℤ) < max_steps) := by
  induction keys' generalizing w with
  | nil =>
      rw [FocusNav.pressAll, Prod.mk.injEq] at hall
      obtain ⟨rfl, -⟩ := hall
      exact ⟨0, .nil _, rfl, fun hne => absurd rfl hne⟩
  | cons key keys' ih =>
      have hkeys' : ∀ key ∈ keys', key ∈ keys :=
        fun key hmem => hkeys key (List.mem_cons_of_mem _ hmem)
      rw [FocusNav.pressAll] at hall
      rcases h.press (R := R) (hkeys key List.mem_cons_self) rfl with
        ⟨result', s', log', hpress, -, hended⟩ | ⟨w', hpress, hat, -⟩
      · rw [hpress] at hall
        cases hall
        rcases hout with hout | hout <;> rcases hended with hended | hended <;>
          exact nomatch hout.symm.trans hended
      · have hmoves := @pressAll_moved σ R target max_steps w' keys'
        rw [hpress] at hall
        dsimp only at hall
        by_cases hspent : max_steps ≤ w'.steps
        · rw [if_pos hspent, Prod.mk.injEq] at hall
          obtain ⟨rfl, -⟩ := hall
          rcases hout with hout | hout <;> exact nomatch hout
        · rw [if_neg hspent] at hall
          rw [hall] at hmoves
          obtain ⟨n, hstill, hsteps, hlt⟩ := ih hkeys' hat hall
          -- the last key leaves steps as well
          have hlt : ((w'.steps + n : ℕ) : ℤ) < max_steps := by
            by_cases hnil : keys' = []
            · rw [hnil] at hstill
              cases hstill
              omega
            · exact hlt hnil
          cases hfuel : (max_steps - w.steps).toNat with
          | zero =>
              rw [hfuel, FocusNav.press] at hpress
              cases hpress
              omega
          | succ fuel =>
              rw [hfuel] at hpress
              rcases h.press_still fuel hpress (fun hw' => hmoved (hmoves hw')) with
                ⟨hsend, heq⟩ | ⟨s', moved, hsend, hread, hclear, hstart, heq⟩
              · exact ⟨n, .undelivered hsend hstill, by omega, fun _ => by omega⟩
              · exact ⟨n + 1, .stays moved hsend hread hclear hstart hstill, by omega,
                  fun _ => by omega⟩

/-- Where all that was read is one stop. -/
def Unmoved (start : AxElement) (log : List Call) : Prop :=
  ∀ r ∈ reads log, ∃ el, r = some el ∧ el.focusKey = start.focusKey

theorem Unmoved.not_moved {log : List Call} (h : Unmoved start log) : ¬ Moved log := by
  rintro ⟨first, after, hreads, el, hmem, hne⟩
  obtain ⟨first', heq, hfirst⟩ := h (some first) (hreads ▸ List.mem_cons_self)
  obtain ⟨el', heq', hel⟩ := h (some el) (hreads ▸ List.mem_cons_of_mem _ hmem)
  cases heq
  cases heq'
  exact hne (hel.trans hfirst.symm)

/-- By induction on the keys: a ring that does not move is walked to the end of them. -/
theorem Still.pressAll {keys : List String} {s : σ} {n : ℕ} (hstill : Still R target start keys s n)
    (hring : w.ring.1 = s) (hseen : start.focusKey ∈ w.seen)
    (hlt : ((w.steps + n : ℕ) : ℤ) < max_steps)
    (hunmoved : Unmoved start w.ring.2) :
    ∃ w' : Walk (σ × List Call), FocusNav.pressAll R.logged target max_steps keys w =
        (⟨if w'.steps = 0 then .stuck else .cycled, some w'.focused, w'.steps, w'.path⟩, w'.ring) ∧
      w'.steps = w.steps + n ∧ Unmoved start w'.ring.2 := by
  induction hstill generalizing w with
  | nil s => exact ⟨w, rfl, rfl, hunmoved⟩
  | @undelivered key keys s s' n hsend _ ih =>
      obtain ⟨fuel, hfuel⟩ : ∃ fuel : ℕ, (max_steps - w.steps).toNat = fuel + 1 :=
        Nat.exists_eq_succ_of_ne_zero (by omega)
      have hlogged : R.logged.send_key key w.ring = (false, s', w.ring.2 ++ [Call.send key false]) := by
        simp only [Ring.logged, hring, hsend]
      rw [FocusNav.pressAll, hfuel, press, hlogged]
      dsimp only
      rw [if_neg (by omega)]
      refine ih rfl hseen hlt ?_
      dsimp only
      rw [Unmoved, reads_send]
      exact hunmoved
  | @stays key keys s s' s'' n el hsend hread hclear hstart _ ih =>
      obtain ⟨fuel, hfuel⟩ : ∃ fuel : ℕ, (max_steps - w.steps).toNat = fuel + 1 :=
        Nat.exists_eq_succ_of_ne_zero (by omega)
      have hsent : R.logged.send_key key w.ring = (true, s', w.ring.2 ++ [Call.send key true]) := by
        simp only [Ring.logged, hring, hsend]
      have hreads : R.logged.read_focus (s', w.ring.2 ++ [Call.send key true]) =
          (some el, s'', w.ring.2 ++ [Call.send key true] ++ [Call.read (some el)]) := by
        simp only [Ring.logged, hread]
      rw [FocusNav.pressAll, hfuel, press, hsent]
      dsimp only
      rw [hreads]
      dsimp only
      rw [hclear, if_neg Bool.false_ne_true, if_pos (hstart ▸ hseen)]
      dsimp only
      rw [if_neg (by push_cast at hlt ⊢; omega)]
      have hnext : Unmoved start (w.ring.2 ++ [Call.send key true] ++ [Call.read (some el)]) := by
        rw [Unmoved, reads_read, reads_send]
        intro r hr
        rcases List.mem_append.mp hr with hold | hnew
        · exact hunmoved r hold
        · exact ⟨el, List.mem_singleton.mp hnew, hstart⟩
      obtain ⟨w', hall, hsteps, hlast⟩ := ih (w :=
        { w with ring := (s'', w.ring.2 ++ [Call.send key true] ++ [Call.read (some el)]),
                 focused := el, steps := w.steps + 1 })
        rfl hseen (by push_cast at hlt ⊢; omega) hnext
      exact ⟨w', hall, by rw [hsteps]; dsimp only; omega, hlast⟩

/-! ## What is reported -/

/-- The walk that `navigate_to` starts. -/
theorem at_start {focused : AxElement} (hclear : target focused = false) (keys : List String)
    (max_steps : ℤ) (s : σ) :
    At target focused keys max_steps
      { ring := (s, [Call.read (some focused)]), focused, seen := [focused.focusKey],
        path := [focused.focusKey], steps := 0 } := by
  refine ⟨⟨[], rfl⟩, ?_, fun k => ?_, rfl, rfl, ?_, ?_⟩
  · intro r hr
    exact ⟨focused, List.mem_singleton.mp hr, hclear⟩
  · rw [List.mem_singleton, Visited]
    constructor
    · rintro rfl
      exact ⟨focused, List.mem_singleton_self _, rfl⟩
    · rintro ⟨el, hmem, rfl⟩
      cases List.mem_singleton.mp hmem
      rfl
  · exact le_max_left 0 max_steps
  · intro key d hmem
    exact nomatch List.mem_singleton.mp hmem

theorem reports_unread (target : AxElement → Bool) (keys : List String) (max_steps : ℤ) :
    Reports target keys max_steps ⟨.no_focus, none, 0, []⟩ [Call.read none] where
  few := le_max_left 0 max_steps
  listed := fun _ _ hmem => nomatch List.mem_singleton.mp hmem
  stops := by
    intro before el after hlog hel
    rcases List.append_eq_singleton_iff.mp hlog.symm with ⟨-, heq⟩ | ⟨-, heq⟩
    · exact nomatch heq
    · exact nomatch heq
  found := by
    constructor
    · rintro (hout | hout) <;> exact nomatch hout
    · rintro ⟨el, heq, -⟩
      exact nomatch heq
  blind := ⟨fun _ => rfl, fun _ => rfl⟩
  stuck := by
    rintro (hout | hout) <;> exact nomatch hout
  cycled := nofun

theorem reports_already {focused : AxElement} (hfocused : target focused = true)
    (keys : List String) (max_steps : ℤ) :
    Reports target keys max_steps ⟨.already, some focused, 0, [focused.focusKey]⟩
      [Call.read (some focused)] where
  few := le_max_left 0 max_steps
  listed := fun _ _ hmem => nomatch List.mem_singleton.mp hmem
  stops := by
    intro before el after hlog hel
    rcases List.append_eq_singleton_iff.mp hlog.symm with ⟨-, heq⟩ | ⟨-, heq⟩
    · exact (List.cons.inj heq).2
    · exact nomatch heq
  found := ⟨fun _ => ⟨focused, rfl, hfocused⟩, fun _ => .inl rfl⟩
  blind := by
    constructor <;> intro heq <;> exact nomatch heq
  stuck := by
    rintro (hout | hout) <;> exact nomatch hout
  cycled := nofun

/-- **The walk reports the truth unless its keys are spent on a ring that does not move**: some
key was delivered, and none moved the focus. -/
theorem reports_iff (R : Ring σ) (target : AxElement → Bool) (keys : List String) (max_steps : ℤ)
    (s s' : σ) (result : FocusResult) (log : List Call)
    (hrun : navigate_to R.logged target keys max_steps (s, []) = some (result, s', log)) :
    Reports target keys max_steps result log ↔
      ¬ ∃ start s₁ n, R.read_focus s = (some start, s₁) ∧ target start = false ∧
        Still R target start keys s₁ n ∧ 0 < n ∧ (n : ℤ) < max_steps := by
  have hkeys : keys ≠ [] := by
    rintro rfl
    exact nomatch hrun
  rw [navigate_to, if_neg hkeys] at hrun
  cases hfirst : R.read_focus s with
  | mk focused s₁ =>
      have hlogged : R.logged.read_focus (s, []) = (focused, s₁, [Call.read focused]) := by
        simp only [Ring.logged, hfirst, List.nil_append]
      rw [hlogged] at hrun
      cases focused with
      | none =>
          cases hrun
          constructor
          · rintro - ⟨start, s₁', n, heq, -⟩
            exact nomatch heq
          · intro _
            exact reports_unread target keys max_steps
      | some focused =>
          dsimp only at hrun
          cases hclear : target focused with
          | true =>
              rw [hclear, if_pos rfl] at hrun
              cases hrun
              constructor
              · rintro - ⟨start, s₁', n, heq, hstart, -⟩
                cases heq
                exact nomatch hclear.symm.trans hstart
              · intro _
                exact reports_already hclear keys max_steps
          | false =>
              rw [hclear, if_neg Bool.false_ne_true] at hrun
              have hall := Option.some.inj hrun
              have hat := at_start hclear keys max_steps s₁
              constructor
              · -- a ring that does not move is reported as one that wrapped
                rintro hreports ⟨start, s₁', n, heq, hstart, hstill, hpos, hlt⟩
                cases heq
                have hlt : ((0 + n : ℕ) : ℤ) < max_steps := by omega
                obtain ⟨w', hwalk, hsteps, hlast⟩ := hstill.pressAll (w :=
                  { ring := (s₁, [Call.read (some focused)]), focused, seen := [focused.focusKey],
                    path := [focused.focusKey], steps := 0 })
                  rfl List.mem_cons_self hlt (by
                    intro r hr
                    exact ⟨focused, List.mem_singleton.mp hr, rfl⟩)
                rw [hwalk, Prod.mk.injEq] at hall
                obtain ⟨rfl, hring⟩ := hall
                rw [hring] at hlast
                dsimp only at hsteps
                refine hlast.not_moved (hreports.cycled ?_).1
                exact if_neg (by omega)
              · intro hnone
                rcases hat.pressAll (R := R) keys (fun _ hmem => hmem) hall with
                  ⟨hreports, -⟩ | ⟨w', hat', hring, hout, hsteps, hwalked⟩
                · exact hreports
                · have hspent : result.outcome = .stuck ∨ result.outcome = .cycled := by
                    rw [hout]
                    by_cases hzero : w'.steps = 0
                    · exact .inl (if_pos hzero)
                    · exact .inr (if_neg hzero)
                  have hmoved : w'.steps ≠ 0 → Moved log := by
                    intro hpos
                    by_contra hstays
                    obtain ⟨n, hstill, hn, hlt⟩ :=
                      hat.still keys (fun _ hmem => hmem) hall hspent hstays
                    dsimp only at hn
                    exact hnone ⟨focused, s₁, n, rfl, hclear, hstill, by omega,
                      by have := hlt hkeys; dsimp only at this; omega⟩
                  have hlog : w'.ring.2 = log := congrArg Prod.snd hring
                  have hunmoved := hat'.unmoved
                  have hreports := @At.reports σ target _ keys max_steps w' hat' result
                  rw [hlog] at hunmoved hreports
                  rw [hout] at hreports
                  by_cases hzero : w'.steps = 0
                  · rw [if_pos hzero] at hreports
                    exact hreports ⟨nofun, nofun, nofun⟩
                      (fun _ => ⟨fun _ => hunmoved hzero, fun _ => rfl⟩) nofun
                  · rw [if_neg hzero] at hreports
                    exact hreports ⟨nofun, nofun, nofun⟩
                      (fun _ => ⟨nofun, fun hnot => absurd (hmoved hzero) hnot⟩)
                      (fun _ => ⟨hmoved hzero, focused, hwalked⟩)

namespace Sample

def button : AxElement := ⟨"button", "OK", "ok", ⟨40, 40, 80, 60⟩, -1, "", "", none⟩

def link : AxElement := ⟨"link", "Help", "help", ⟨90, 40, 130, 60⟩, -1, "", "", none⟩

/-- A ring of two stops: the key goes to the other. -/
def pair : Ring Bool where
  read_focus := fun b => (some (if b then link else button), b)
  send_key := fun _ b => (true, !b)

/-- A dialog with one stop: the key is delivered and the focus stays. -/
def modal : Ring Unit where
  read_focus := fun u => (some button, u)
  send_key := fun _ u => (true, u)

def onMenu (el : AxElement) : Bool := el.role = "menu"

end Sample

theorem reports_iff_pair :
    Reports Sample.onMenu ["tab"] 8 ⟨.cycled, some Sample.button, 2, [Sample.button.focusKey,
      Sample.link.focusKey]⟩ [Call.read (some Sample.button), .send "tab" true,
      .read (some Sample.link), .send "tab" true, .read (some Sample.button)] ↔
      ¬ ∃ start s₁ n, Sample.pair.read_focus false = (some start, s₁) ∧
        Sample.onMenu start = false ∧
        Still Sample.pair Sample.onMenu start ["tab"] s₁ n ∧ 0 < n ∧ (n : ℤ) < 8 :=
  reports_iff Sample.pair Sample.onMenu ["tab"] 8 false false _ _ rfl

/-- One key is delivered and moves nothing, and the walk is said to have cycled. -/
theorem cycled_where_nothing_moved :
    ∃ result log, navigate_to Sample.modal.logged Sample.onMenu ["tab"] 8 ((), []) =
        some (result, (), log) ∧
      result.outcome = .cycled ∧ ¬ Moved log ∧
      ¬ Reports Sample.onMenu ["tab"] 8 result log := by
  have hstays : ¬ Moved [Call.read (some Sample.button), .send "tab" true,
      .read (some Sample.button)] := by
    rintro ⟨start, after, hreads, el, hmem, hne⟩
    cases hreads
    cases List.mem_singleton.mp hmem
    exact hne rfl
  have hrun : navigate_to Sample.modal.logged Sample.onMenu ["tab"] 8 ((), []) =
      some (⟨.cycled, some Sample.button, 1, [Sample.button.focusKey]⟩, (),
        [Call.read (some Sample.button), .send "tab" true, .read (some Sample.button)]) := rfl
  exact ⟨_, _, hrun, rfl, hstays, fun hreports => hstays (hreports.cycled rfl).1⟩

end FocusNav

end Secdogie.Agent
