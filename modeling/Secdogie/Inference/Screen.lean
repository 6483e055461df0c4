/-
# `Secdogie.Inference.Screen` — what the safety layer sees in an answer

The screens read every JSON object in an answer the way an executor would.
They find them by a scan of their own, with caps on the places it tries, on
the depth and on the objects, and not by the executor's parser;
`screens_of_reached` says when the scan finds the object that is executed.
-/
import Secdogie.Agent.Action

namespace Secdogie.Inference

open Secdogie.Agent

/-! ## The screens -/

def SCOPE_FOR : List (Str × Str) :=
  [(.of "left_click", .of "physical.click"), (.of "right_click", .of "physical.click"),
    (.of "double_click", .of "physical.click"), (.of "click_element", .of "physical.click"),
    (.of "track_click", .of "physical.click"), (.of "move", .of "physical.click"),
    (.of "click", .of "physical.click"), (.of "press", .of "physical.click"),
    (.of "type", .of "physical.type"), (.of "key", .of "physical.key"),
    (.of "hold_key", .of "physical.key"), (.of "scroll", .of "physical.scroll"),
    (.of "drag", .of "physical.drag"), (.of "open", .of "system.open"),
    (.of "run", .of "process.run"), (.of "post", .of "network.post"),
    (.of "publish", .of "network.post"), (.of "submit", .of "network.post"),
    (.of "comment", .of "network.post"), (.of "send", .of "network.send"),
    (.of "reply", .of "network.send"), (.of "read", .of "observe.read"),
    (.of "observe", .of "observe.read"), (.of "look", .of "observe.read"),
    (.of "screenshot", .of "observe.read")]

def BENIGN_ACTIONS : List Str := [.of "done", .of "ask_user", .of "wait", .of "remember"]

def FORBIDDEN_ACTIONS : List Str :=
  [.of "run_elevated", .of "write_memory", .of "inject_thread", .of "kernel_hid",
    .of "disable_gate", .of "bypass_gate", .of "disable_hitl", .of "auto_approve",
    .of "install_persistence", .of "evade_detection"]

def FORBIDDEN_SCOPES : List Str :=
  [.of "process.run_elevated", .of "process.memory.write", .of "process.thread.inject",
    .of "kernel.hid", .of "privilege.escalate", .of "gate.bypass", .of "hitl.disable",
    .of "persistence.install", .of "edr.evade"]

def MAX_SCAN : Nat := 256
def MAX_OBJECTS : Nat := 128

def scope_for (action : Str) : Option Str :=
  (SCOPE_FOR.find? (fun e => decide (e.1 = action))).map Prod.snd

def isOpen (c : Nat) : Bool := c = '['.toNat || c = '\x7b'.toNat

/-- The objects in a value, those before it first; `room` is how many levels
may still be gone down. -/
def collect : Nat → List Json.Dict → Json → List Json.Dict
  | 0, found, _ => found
  | room + 1, found, v =>
      if MAX_OBJECTS ≤ found.length then found
      else
        match v with
        | .obj d => d.foldl (fun found m => collect room found m.2) (found ++ [d])
        | .arr vs => vs.foldl (collect room) found
        | _ => found

/-- The scan from some place on: `n` brackets come before it, and `skip` more
characters are part of the value decoded last.  `none` when it raises. -/
def scan (room : Nat) : Nat → Nat → List Json.Dict → Str → Option (List Json.Dict)
  | _, _, found, [] => some found
  | n, skip, found, c :: s =>
      if isOpen c = false then scan room n (skip - 1) found s
      else if MAX_SCAN ≤ n then some found
      else if 0 < skip then scan room (n + 1) (skip - 1) found s
      else
        match Json.raw_decode room (c :: s) with
        | .error .tooDeep => none
        | .error _ => scan room (n + 1) 0 found s
        | .ok (v, rest) => scan room (n + 1) (s.length - rest.length) (collect 9 found v) s

def json_objects (room : Nat) (text : Str) : Option (List Json.Dict) := scan room 0 0 [] text

/-- The strings in a list. -/
def strings : Option Json → List Str
  | some (.arr vs) => vs.filterMap (fun v => match v with | .str s => some s | _ => none)
  | _ => []

def named_scopes (d : Json.Dict) : List Str :=
  [Str.of "scope", .of "capability"].filterMap (fun k =>
      match Json.get d k with
      | some (.str s) => some s
      | _ => none) ++
    [Str.of "scopes", .of "capabilities"].flatMap (fun k => strings (Json.get d k))

section

variable (lower : Str → Str) (room : Nat)

/-- `_action`; `lower` is `str.lower`. -/
def actionOf (d : Json.Dict) : Option Str :=
  match Json.get d (.of "action") with
  | some (.str a) => some (lower (strip isSpace a))
  | _ => none

local instance lawful_scope : LawfulBEq Str := inferInstance

def forbiddenIn (d : Json.Dict) : List Str :=
  ((actionOf lower d).toList.filter (fun a => decide (a ∈ FORBIDDEN_ACTIONS))).map
      (Str.of "action " ++ ·) ++
    ((named_scopes d).filter (fun s => decide (s ∈ FORBIDDEN_SCOPES))).map (Str.of "scope " ++ ·)

def forbidden (output : Str) : Option (List Str) :=
  (json_objects room output).map (List.flatMap (forbiddenIn lower))

def overreachIn (granted : List Str) (d : Json.Dict) : List Str :=
  (match actionOf lower d with
    | none => []
    | some action =>
        if action ∈ BENIGN_ACTIONS ∨ action ∈ FORBIDDEN_ACTIONS then []
        else
          match scope_for action with
          | none => [Str.of "action " ++ action ++ .of " has no capability scope"]
          | some scope =>
              if scope ∈ granted then [] else [Str.of "action " ++ action ++ .of " needs " ++ scope]) ++
    ((named_scopes d).filter (fun s => decide (s ∉ granted ∧ s ∉ FORBIDDEN_SCOPES))).map
      (fun s => Str.of "scope " ++ s ++ .of " not granted")

def overreach (output : Str) (granted : List Str) : Option (List Str) :=
  (json_objects room output).map (List.flatMap (overreachIn lower granted))

/-! ## What is to be shown -/

/-- The action that is executed, by an agent whose stack has this room. -/
def executed (str : Json → Str) (agentRoom : Nat) (text : Str) : Option Action :=
  (parse_action_json agentRoom text).bind (from_dict str)

/-- Neither screen raises, and they see the action that is executed. -/
structure Screens (str : Json → Str) (agentRoom : Nat) (text : Str) (granted : List Str) : Prop where
  forbidden_some : (forbidden lower room text).isSome
  overreach_some : (overreach lower room text granted).isSome
  forbidden_ne : ∀ a, executed str agentRoom text = some a → a.kind ∈ FORBIDDEN_ACTIONS →
    forbidden lower room text ≠ some []
  overreach_ne : ∀ a scope, executed str agentRoom text = some a →
    scope_for a.kind = some scope → scope ∉ granted → overreach lower room text granted ≠ some []

/-- Here the scan tries to decode: a value may start, fewer than `MAX_SCAN` may
before, and no value that was decoded goes beyond. -/
def Tried (text : Str) (j : Nat) : Prop :=
  (∃ c, text[j]? = some c ∧ isOpen c = true) ∧ (text.take j).countP isOpen < MAX_SCAN ∧
    ∀ i, i < j → Tried text i → ∀ v rest, Json.raw_decode room (text.drop i) = .ok (v, rest) →
      text.length - rest.length ≤ j
termination_by j

/-- The first object in a value, down to so many levels. -/
def leading : Nat → Json → Option Json.Dict
  | _, .obj d => some d
  | room + 1, .arr vs => vs.findSome? (leading room)
  | _, _ => none

/-- The scan gets to the object: it is the first one in a value that is decoded
where the scan tries, with no brace before. -/
def Reached (text : Str) (d : Json.Dict) : Prop :=
  ∃ j v rest, Tried room text j ∧ '\x7b'.toNat ∉ text.take j ∧
    Json.raw_decode room (text.drop j) = .ok (v, rest) ∧ leading 8 v = some d

/-- Nowhere does the scan come on a value that goes too deep. -/
def RaiseFree (text : Str) : Prop :=
  ∀ j, Tried room text j → Json.raw_decode room (text.drop j) ≠ .error .tooDeep

/-- An object that is executed, but is not all of the answer, is one that the
scan gets to. -/
def ReachesExecuted (str : Json → Str) (agentRoom : Nat) (text : Str) : Prop :=
  ∀ a m, executed str agentRoom text = some a →
    Json.loads agentRoom (stripFence text) = .error .malformed → objectMatch text = some m →
      Reached room text a.raw

end

/-! ## Collecting -/

theorem foldl_grows {α : Type} {step : List Json.Dict → α → List Json.Dict}
    (h : ∀ found x, ∃ more, step found x = found ++ more) (l : List α) (found : List Json.Dict) :
    ∃ more, l.foldl step found = found ++ more := by
  induction l generalizing found with
  | nil => exact ⟨[], (List.append_nil _).symm⟩
  | cons x l ih =>
      obtain ⟨more, hmore⟩ := h found x
      obtain ⟨more', hmore'⟩ := ih (found ++ more)
      refine ⟨more ++ more', ?_⟩
      rw [List.foldl_cons, hmore, hmore', List.append_assoc]

/-- What is found before stays. -/
theorem collect_grows (room : Nat) (found : List Json.Dict) (v : Json) :
    ∃ more, collect room found v = found ++ more := by
  induction room generalizing found v with
  | zero => exact ⟨[], (List.append_nil _).symm⟩
  | succ room ih =>
      rw [collect.eq_def]
      dsimp only
      split_ifs
      · exact ⟨[], (List.append_nil _).symm⟩
      · cases v with
        | obj d =>
            obtain ⟨more, hmore⟩ := foldl_grows (fun found (m : Str × Json) => ih found m.2) d
              (found ++ [d])
            refine ⟨d :: more, hmore.trans ?_⟩
            rw [List.append_assoc]
            rfl
        | arr vs => exact foldl_grows ih vs found
        | _ => exact ⟨[], (List.append_nil _).symm⟩

theorem mem_foldl {α : Type} {step : List Json.Dict → α → List Json.Dict}
    (h : ∀ found x, ∃ more, step found x = found ++ more) (l : List α) {found : List Json.Dict}
    {d : Json.Dict} (hd : d ∈ found) : d ∈ l.foldl step found := by
  obtain ⟨more, hmore⟩ := foldl_grows h l found
  rw [hmore]
  exact List.mem_append_left _ hd

/-- Nothing is found where there is no object to go down to. -/
theorem collect_none {room : Nat} {v : Json} (h : leading room v = none)
    (found : List Json.Dict) : collect (room + 1) found v = found := by
  induction room generalizing v found with
  | zero =>
      rw [collect.eq_def]
      dsimp only
      split_ifs
      · rfl
      · cases v with
        | obj d => cases h
        | arr vs =>
            dsimp only
            induction vs with
            | nil => rfl
            | cons x vs ih => exact ih rfl
        | _ => rfl
  | succ room ih =>
      rw [collect.eq_def]
      dsimp only
      split_ifs
      · rfl
      · cases v with
        | obj d => cases h
        | arr vs =>
            rw [leading] at h
            dsimp only
            induction vs with
            | nil => rfl
            | cons x vs ihv =>
                rw [List.findSome?_cons] at h
                cases hx : leading room x with
                | some d =>
                    rw [hx] at h
                    cases h
                | none =>
                    rw [hx] at h
                    rw [List.foldl_cons, ih hx]
                    exact ihv h
        | _ => rfl

/-- The first object there is to go down to is found first. -/
theorem mem_collect {room : Nat} {v : Json} {d : Json.Dict} (h : leading room v = some d) :
    d ∈ collect (room + 1) [] v := by
  have hobj : ∀ room, d ∈ collect (room + 1) [] (.obj d) := by
    intro room
    rw [collect.eq_def]
    dsimp only
    rw [if_neg (by decide)]
    exact mem_foldl (fun found (m : Str × Json) => collect_grows room found m.2) d
      (List.mem_singleton_self d)
  induction room generalizing v with
  | zero =>
      cases v with
      | obj d' =>
          cases h
          exact hobj 0
      | _ => cases h
  | succ room ih =>
      cases v with
      | obj d' =>
          cases h
          exact hobj (room + 1)
      | arr vs =>
          rw [leading] at h
          rw [collect.eq_def]
          dsimp only
          rw [if_neg (by decide)]
          induction vs with
          | nil => cases h
          | cons x vs ihv =>
              rw [List.findSome?_cons] at h
              rw [List.foldl_cons]
              cases hx : leading room x with
              | none =>
                  rw [hx] at h
                  rw [collect_none hx]
                  exact ihv h
              | some d' =>
                  rw [hx] at h
                  cases h
                  exact mem_foldl (collect_grows (room + 1)) vs (ih hx)
      | _ => cases h

/-- A value in which no brace was opened has none. -/
theorem leading_of_bare {room : Nat} {v : Json} (h : Json.bare v = true) :
    leading room v = none := by
  induction room generalizing v with
  | zero =>
      cases v with
      | obj d => cases h
      | _ => rfl
  | succ room ih =>
      cases v with
      | obj d => cases h
      | arr vs =>
          rw [leading]
          rw [Json.bare] at h
          induction vs with
          | nil => rfl
          | cons x vs ihv =>
              rw [Json.bareItems, Bool.and_eq_true] at h
              rw [List.findSome?_cons, ih h.1]
              exact ihv h.2
      | _ => rfl

/-! ## The scan -/

section

variable {room : Nat} {text : Str}

/-- Where the scan is: after `k` characters, of which `n` open something, and
`skip` before the end of what was decoded. -/
structure At (room : Nat) (text : Str) (k n skip : Nat) : Prop where
  count : (text.take k).countP isOpen = n
  ends : ∀ i, i < k → Tried room text i → ∀ v rest,
    Json.raw_decode room (text.drop i) = .ok (v, rest) → text.length - rest.length ≤ k + skip
  last : 0 < skip → ∃ i, i < k ∧ Tried room text i ∧ ∃ v rest,
    Json.raw_decode room (text.drop i) = .ok (v, rest) ∧ text.length - rest.length = k + skip

theorem At.start : At room text 0 0 0 where
  count := rfl
  ends i hi := absurd hi (Nat.not_lt_zero i)
  last h := absurd h (lt_irrefl 0)

variable {k n skip : Nat} {c : Nat} {s : Str}

theorem at_of_drop (hdrop : text.drop k = c :: s) : text[k]? = some c ∧ text.drop (k + 1) = s ∧
    (text.take (k + 1)).countP isOpen = (text.take k).countP isOpen + if isOpen c then 1 else 0 := by
  have hget : text[k]? = some c := by
    have hhead := congrArg List.head? hdrop
    rwa [List.head?_drop] at hhead
  refine ⟨hget, ?_, ?_⟩
  · rw [← List.drop_drop, hdrop]
    rfl
  · rw [List.take_add_one, hget, List.countP_append]
    simp [List.countP_cons]

theorem At.tried_iff (h : At room text k n skip) (hdrop : text.drop k = c :: s)
    (hopen : isOpen c = true) : Tried room text k ↔ n < MAX_SCAN ∧ skip = 0 := by
  rw [Tried, h.count]
  constructor
  · rintro ⟨-, hn, hends⟩
    refine ⟨hn, Nat.eq_zero_of_not_pos (fun hpos => ?_)⟩
    obtain ⟨i, hi, htried, v, rest, hdecode, hend⟩ := h.last hpos
    have hle := hends i hi htried v rest hdecode
    omega
  · rintro ⟨hn, rfl⟩
    exact ⟨⟨c, (at_of_drop hdrop).1, hopen⟩, hn, h.ends⟩

/-- A place at which nothing is decoded. -/
theorem At.pass (h : At room text k n skip) (hdrop : text.drop k = c :: s)
    (hnot : ∀ v rest, Tried room text k → Json.raw_decode room (c :: s) ≠ .ok (v, rest)) :
    At room text (k + 1) (if isOpen c then n + 1 else n) (skip - 1) where
  count := by
    rw [(at_of_drop hdrop).2.2, h.count]
    split_ifs <;> rfl
  ends i hi htried v rest hdecode := by
    rcases Nat.lt_or_ge i k with hlt | hge
    · have hend := h.ends i hlt htried v rest hdecode
      omega
    · obtain rfl : i = k := by omega
      rw [hdrop] at hdecode
      exact absurd hdecode (hnot v rest htried)
  last hpos := by
    obtain ⟨i, hi, htried, v, rest, hdecode, hend⟩ := h.last (by omega)
    exact ⟨i, by omega, htried, v, rest, hdecode, by omega⟩

/-- A place at which a value is decoded. -/
theorem At.decoded (h : At room text k n 0) (hdrop : text.drop k = c :: s)
    (hopen : isOpen c = true) (hn : n < MAX_SCAN) {v : Json} {rest : Str}
    (hdecode : Json.raw_decode room (c :: s) = .ok (v, rest)) :
    At room text (k + 1) (n + 1) (s.length - rest.length) := by
  have hlen : text.length = k + s.length + 1 := by
    have hdroplen := congrArg List.length hdrop
    rw [List.length_drop, List.length_cons] at hdroplen
    have hlt : k < text.length := by
      by_contra hle
      rw [List.drop_eq_nil_of_le (by omega)] at hdrop
      cases hdrop
    omega
  have htried : Tried room text k := (h.tried_iff hdrop hopen).mpr ⟨hn, rfl⟩
  refine ⟨?_, ?_, ?_⟩
  · rw [(at_of_drop hdrop).2.2, h.count, if_pos hopen]
  · intro i hi htried' v' rest' hdecode'
    rcases Nat.lt_or_ge i k with hlt | hge
    · have hend := h.ends i hlt htried' v' rest' hdecode'
      omega
    · obtain rfl : i = k := by omega
      rw [hdrop, hdecode] at hdecode'
      cases hdecode'
      omega
  · intro hpos
    exact ⟨k, k.lt_succ_self, htried, v, rest, by rw [hdrop]; exact hdecode, by omega⟩

theorem scan_grows {found r : List Json.Dict} (h : scan room n skip found s = some r) :
    ∃ more, r = found ++ more := by
  induction s generalizing n skip found with
  | nil =>
      cases h
      exact ⟨[], (List.append_nil _).symm⟩
  | cons c s ih =>
      rw [scan] at h
      split_ifs at h
      · exact ih h
      · cases h
        exact ⟨[], (List.append_nil _).symm⟩
      · exact ih h
      · split at h
        · cases h
        · exact ih h
        · next v rest _ =>
            obtain ⟨more, hmore⟩ := collect_grows 9 found v
            obtain ⟨more', rfl⟩ := ih h
            exact ⟨more ++ more', by rw [hmore, List.append_assoc]⟩

theorem Tried.open (h : Tried room text k) (hdrop : text.drop k = c :: s) : isOpen c = true := by
  rw [Tried] at h
  obtain ⟨⟨c', hc', hopen⟩, -⟩ := h
  rw [(at_of_drop hdrop).1] at hc'
  cases hc'
  exact hopen

/-- What the scan does at a place: it stops there, it goes on, or it tries to
decode. -/
theorem scan_cases (h : At room text k n skip) (hdrop : text.drop k = c :: s) :
    (MAX_SCAN ≤ (text.take k).countP isOpen ∧
      ∀ found, scan room n skip found (c :: s) = some found) ∨
    (¬ Tried room text k ∧ ∃ n', At room text (k + 1) n' (skip - 1) ∧
      ∀ found, scan room n skip found (c :: s) = scan room n' (skip - 1) found s) ∨
    Tried room text k ∧
      ((Json.raw_decode room (c :: s) = .error .tooDeep ∧
          ∀ found, scan room n skip found (c :: s) = none) ∨
        (∃ e n', Json.raw_decode room (c :: s) = .error e ∧ At room text (k + 1) n' 0 ∧
          ∀ found, scan room n skip found (c :: s) = scan room n' 0 found s) ∨
        ∃ v rest n' skip', Json.raw_decode room (c :: s) = .ok (v, rest) ∧
          At room text (k + 1) n' skip' ∧
          ∀ found, scan room n skip found (c :: s) = scan room n' skip' (collect 9 found v) s) := by
  by_cases hopen : isOpen c = true
  · by_cases hn : MAX_SCAN ≤ n
    · refine .inl ⟨h.count.symm ▸ hn, fun found => ?_⟩
      rw [scan, if_neg (by rw [hopen]; decide), if_pos hn]
    · by_cases hskip : 0 < skip
      · have hnot : ¬ Tried room text k := by
          rw [h.tried_iff hdrop hopen]
          omega
        have hpass := h.pass hdrop (fun v rest htried => absurd htried hnot)
        rw [if_pos hopen] at hpass
        refine .inr (.inl ⟨hnot, n + 1, hpass, fun found => ?_⟩)
        rw [scan, if_neg (by rw [hopen]; decide), if_neg hn, if_pos hskip]
      · obtain rfl : skip = 0 := by omega
        have htried := (h.tried_iff hdrop hopen).mpr ⟨by omega, rfl⟩
        have hscan : ∀ found, scan room n 0 found (c :: s) =
            match Json.raw_decode room (c :: s) with
            | .error .tooDeep => none
            | .error _ => scan room (n + 1) 0 found s
            | .ok (v, rest) =>
                scan room (n + 1) (s.length - rest.length) (collect 9 found v) s := by
          intro found
          rw [scan, if_neg (by rw [hopen]; decide), if_neg hn, if_neg hskip]
        refine .inr (.inr ⟨htried, ?_⟩)
        cases hdecode : Json.raw_decode room (c :: s) with
        | ok r =>
            obtain ⟨v, rest⟩ := r
            refine .inr (.inr ⟨v, rest, n + 1, _, rfl,
              h.decoded hdrop hopen (by omega) hdecode, fun found => ?_⟩)
            rw [hscan, hdecode]
        | error e =>
            have hpass := h.pass hdrop (fun v rest _ => by rw [hdecode]; exact nofun)
            rw [if_pos hopen] at hpass
            cases e with
            | tooDeep =>
                refine .inl ⟨rfl, fun found => ?_⟩
                rw [hscan, hdecode]
            | malformed =>
                refine .inr (.inl ⟨.malformed, n + 1, rfl, hpass, fun found => ?_⟩)
                rw [hscan, hdecode]
            | tooLong =>
                refine .inr (.inl ⟨.tooLong, n + 1, rfl, hpass, fun found => ?_⟩)
                rw [hscan, hdecode]
  · have hnot : ¬ Tried room text k := fun htried => hopen (htried.open hdrop)
    have hpass := h.pass hdrop (fun v rest htried => absurd htried hnot)
    rw [if_neg hopen] at hpass
    refine .inr (.inl ⟨hnot, n, hpass, fun found => ?_⟩)
    rw [scan, if_pos (by simpa using hopen)]

/-- The scan raises only where it tries. -/
theorem scan_isSome (hfree : RaiseFree room text) (found : List Json.Dict)
    (h : At room text k n skip) (hdrop : text.drop k = s) : (scan room n skip found s).isSome := by
  induction s generalizing k n skip found with
  | nil => rfl
  | cons c s ih =>
      have hnext := (at_of_drop hdrop).2.1
      rcases scan_cases h hdrop with ⟨-, hstop⟩ | ⟨-, n', hat, hgo⟩ | ⟨htried, htry⟩
      · rw [hstop]
        rfl
      · rw [hgo]
        exact ih _ hat hnext
      · rcases htry with ⟨hdeep, -⟩ | ⟨e, n', -, hat, hgo⟩ | ⟨v, rest, n', skip', -, hat, hgo⟩
        · exact absurd (by rw [hdrop]; exact hdeep) (hfree k htried)
        · rw [hgo]
          exact ih _ hat hnext
        · rw [hgo]
          exact ih _ hat hnext

/-- A value that ends before any brace is opened. -/
theorem bare_of_ends {v : Json} {rest : Str} {j : Nat}
    (hdecode : Json.raw_decode room (text.drop k) = .ok (v, rest))
    (hend : text.length - rest.length ≤ j) (hbrace : '\x7b'.toNat ∉ text.take j) :
    Json.bare v = true := by
  obtain ⟨-, ⟨u, hu, hbare⟩, -⟩ := Json.raw_decode_reads room _ _ _ hdecode
  refine hbare (fun hmem => hbrace ?_)
  have htext : text = text.take k ++ u ++ rest := by
    rw [List.append_assoc, ← hu, List.take_append_drop]
  have hlen : (text.take k ++ u).length ≤ j := by
    have hsum := congrArg List.length htext
    rw [List.length_append] at hsum
    omega
  rw [htext, List.take_append, List.take_of_length_le hlen]
  exact List.mem_append_left _ (List.mem_append_right _ hmem)

/-- The scan finds what it gets to: up to there it finds nothing. -/
theorem scan_reached {d : Json.Dict} {j : Nat} {v : Json} {rest : Str} {r : List Json.Dict}
    (htried : Tried room text j) (hbrace : '\x7b'.toNat ∉ text.take j)
    (hdecode : Json.raw_decode room (text.drop j) = .ok (v, rest)) (hlead : leading 8 v = some d)
    (h : At room text k n skip) (hk : k ≤ j) (hdrop : text.drop k = s)
    (hr : scan room n skip [] s = some r) : d ∈ r := by
  induction s generalizing k n skip with
  | nil =>
      rw [Tried] at htried
      obtain ⟨⟨c, hc, -⟩, -⟩ := htried
      have hlt := (List.getElem?_eq_some_iff.mp hc).1
      have hle := List.drop_eq_nil_iff.mp hdrop
      omega
  | cons c s ih =>
      have hnext := (at_of_drop hdrop).2.1
      rcases Nat.lt_or_ge k j with hlt | hge
      · rcases scan_cases h hdrop with ⟨hmany, -⟩ | ⟨-, n', hat, hgo⟩ | ⟨htried', htry⟩
        · rw [Tried] at htried
          have hle : (text.take k).countP isOpen ≤ (text.take j).countP isOpen :=
            (List.take_prefix_take_left hk).sublist.countP_le
          omega
        · rw [hgo] at hr
          exact ih hat hlt hnext hr
        · rcases htry with ⟨-, hnone⟩ | ⟨e, n', -, hat, hgo⟩ | ⟨v', rest', n', skip', hv', hat, hgo⟩
          · rw [hnone] at hr
            cases hr
          · rw [hgo] at hr
            exact ih hat hlt hnext hr
          · -- a value that ends before the brace
            rw [hgo, collect_none] at hr
            · exact ih hat hlt hnext hr
            · rw [Tried] at htried
              have hend := htried.2.2 k hlt htried' v' rest' (by rw [hdrop]; exact hv')
              rw [← hdrop] at hv'
              exact leading_of_bare (bare_of_ends hv' hend hbrace)
      · obtain rfl : k = j := by omega
        rw [hdrop] at hdecode
        rcases scan_cases h hdrop with ⟨hmany, -⟩ | ⟨hnot, -⟩ | ⟨-, htry⟩
        · rw [Tried] at htried
          exact absurd hmany (by omega)
        · exact absurd htried hnot
        · rcases htry with ⟨hdeep, -⟩ | ⟨e, n', herr, -⟩ | ⟨v', rest', n', skip', hv', -, hgo⟩
          · rw [hdecode] at hdeep
            cases hdeep
          · rw [hdecode] at herr
            cases herr
          · rw [hdecode] at hv'
            cases hv'
            rw [hgo] at hr
            obtain ⟨more, rfl⟩ := scan_grows hr
            exact List.mem_append_left _ (mem_collect hlead)

/-- All of what comes before may hold neither bracket nor brace. -/
theorem reached_of_after {agentRoom : Nat} {s : Str} {d : Json.Dict} {rest : Str}
    (hfree : RaiseFree room text) (hafter : After NotOpen text s)
    (hdecode : Json.raw_decode agentRoom s = .ok (.obj d, rest)) : Reached room text d := by
  obtain ⟨pre, post, htext, hpre⟩ := hafter
  obtain ⟨s', hs⟩ := Json.brace_of_obj hdecode
  have hdrop : text.drop pre.length = s ++ post := by
    rw [htext, List.append_assoc]
    exact List.drop_left
  have htake : text.take pre.length = pre := by
    rw [htext, List.append_assoc]
    exact List.take_left
  have hclosed : ∀ c ∈ pre, isOpen c = false := by
    intro c hc
    obtain ⟨hbracket, hbrace⟩ := hpre c hc
    simp only [isOpen, Bool.or_eq_false_iff, decide_eq_false_iff_not]
    exact ⟨hbracket, hbrace⟩
  have htried : Tried room text pre.length := by
    rw [Tried, htake]
    refine ⟨⟨'\x7b'.toNat, ?_, rfl⟩, ?_, ?_⟩
    · rw [hs, List.cons_append] at hdrop
      exact (at_of_drop hdrop).1
    · rw [List.countP_eq_zero.mpr (fun c hc => by rw [hclosed c hc]; decide)]
      decide
    · intro i hi htried'
      rw [Tried] at htried'
      obtain ⟨⟨c, hc, hopen⟩, -⟩ := htried'
      rw [htext, List.append_assoc, List.getElem?_append_left hi] at hc
      rw [hclosed c (List.mem_of_getElem? hc)] at hopen
      cases hopen
  have hlocal := (Json.raw_decode_reads agentRoom _ _ _ hdecode).2.2 post (.inl rfl)
  rw [← hdrop] at hlocal
  refine ⟨pre.length, .obj d, rest ++ post, htried, ?_, ?_, rfl⟩
  · rw [htake]
    exact fun hmem => (hpre _ hmem).2 rfl
  · exact (Json.raw_decode_agrees agentRoom room _ _ hlocal).resolve_right (hfree _ htried)

/-- What is reached is among the objects. -/
theorem json_objects_reached {d : Json.Dict} (hfree : RaiseFree room text)
    (h : Reached room text d) : ∃ r, json_objects room text = some r ∧ d ∈ r := by
  obtain ⟨r, hr⟩ := Option.isSome_iff_exists.mp
    (scan_isSome hfree [] At.start List.drop_zero)
  obtain ⟨j, v, rest, htried, hbrace, hdecode, hlead⟩ := h
  exact ⟨r, hr, scan_reached htried hbrace hdecode hlead At.start (Nat.zero_le j)
    List.drop_zero hr⟩

end

/-! ## What is executed -/

theorem from_dict_some {str : Json → Str} {v : Json} {a : Action} (h : from_dict str v = some a) :
    v = .obj a.raw ∧ Json.get a.raw (.of "action") = some (.str a.kind) ∧ a.kind ∈ VALID_ACTIONS := by
  cases v with
  | obj d =>
      rw [from_dict] at h
      dsimp only at h
      split at h
      · next kind hget =>
          split_ifs at h with hvalid
          cases h
          exact ⟨rfl, hget, hvalid⟩
      · cases h
  | _ => cases h

/-- Lower-case letters and the underscore. -/
def isNameChar (c : Nat) : Bool := decide ('a'.toNat ≤ c ∧ c ≤ 'z'.toNat ∨ c = '_'.toNat)

theorem valid_name : ∀ kind ∈ VALID_ACTIONS, strip isSpace kind = kind ∧ kind.all isNameChar := by
  decide

/-- The screens read an action that is executed as what it is. -/
theorem actionOf_valid {lower : Str → Str} (hlower : ∀ s : Str, s.all isNameChar → lower s = s)
    {d : Json.Dict} {kind : Str} (hget : Json.get d (.of "action") = some (.str kind))
    (hvalid : kind ∈ VALID_ACTIONS) : actionOf lower d = some kind := by
  obtain ⟨hstrip, hname⟩ := valid_name kind hvalid
  rw [actionOf, hget]
  dsimp only
  rw [hstrip, hlower kind hname]

theorem flatMap_ne_nil {α β : Type} {f : α → List β} {l : List α} {x : α} (hx : x ∈ l)
    (hf : f x ≠ []) : l.flatMap f ≠ [] := by
  intro h
  exact hf (List.flatMap_eq_nil_iff.mp h x hx)

/-- An action whose scope is known is none of those that need no scope. -/
theorem scope_for_some {kind scope : Str} (h : scope_for kind = some scope) :
    ¬ (kind ∈ BENIGN_ACTIONS ∨ kind ∈ FORBIDDEN_ACTIONS) := by
  have hnone : ∀ kind ∈ BENIGN_ACTIONS ++ FORBIDDEN_ACTIONS, scope_for kind = none := by decide
  intro hmem
  rw [hnone kind (List.mem_append.mpr hmem)] at h
  cases h

/-- Where the scan meets no value that goes too deep, and gets to the object
that is executed, the screens see what the executor does. -/
theorem screens_of_reached (lower : Str → Str) (room : Nat) (str : Json → Str) (agentRoom : Nat)
    (text : Str) (granted : List Str) (hlower : ∀ s : Str, s.all isNameChar → lower s = s)
    (hfree : RaiseFree room text) (hreach : ReachesExecuted room str agentRoom text) :
    Screens lower room str agentRoom text granted := by
  have hseen : ∀ a, executed str agentRoom text = some a → ∃ r, json_objects room text = some r ∧
      a.raw ∈ r ∧ actionOf lower a.raw = some a.kind := by
    intro a ha
    have ha' := ha
    rw [executed] at ha
    obtain ⟨v, hv, hdict⟩ := Option.bind_eq_some_iff.mp ha
    obtain ⟨rfl, hget, hvalid⟩ := from_dict_some hdict
    have hreached : Reached room text a.raw := by
      rw [parse_action_json] at hv
      split at hv
      · next v hloads =>
          cases hv
          obtain ⟨s, rest, hafter, hdecode⟩ := after_loads hloads
          exact reached_of_after hfree ((after_stripFence text).trans hafter) hdecode
      · next hmalformed =>
          obtain ⟨m, hm, -⟩ := Option.bind_eq_some_iff.mp hv
          exact hreach a m ha' hmalformed hm
      · cases hv
    obtain ⟨r, hr, hmem⟩ := json_objects_reached hfree hreached
    exact ⟨r, hr, hmem, actionOf_valid hlower hget hvalid⟩
  have hsome := scan_isSome hfree [] At.start List.drop_zero
  refine ⟨?_, ?_, ?_, ?_⟩
  · rw [forbidden, Option.isSome_map]
    exact hsome
  · rw [overreach, Option.isSome_map]
    exact hsome
  · intro a ha hforbidden h
    obtain ⟨r, hr, hmem, haction⟩ := hseen a ha
    rw [forbidden, hr] at h
    refine flatMap_ne_nil hmem ?_ (Option.some.inj h)
    rw [forbiddenIn, haction]
    simp [hforbidden]
  · intro a scope ha hscope hgranted h
    obtain ⟨r, hr, hmem, haction⟩ := hseen a ha
    rw [overreach, hr] at h
    refine flatMap_ne_nil hmem ?_ (Option.some.inj h)
    rw [overreachIn, haction]
    dsimp only
    rw [if_neg (scope_for_some hscope), hscope]
    simp [hgranted]

/-! ## Two answers -/

namespace Answer

/-- `str.lower` of ASCII text. -/
def lower (s : Str) : Str :=
  s.map (fun c => if 'A'.toNat ≤ c ∧ c ≤ 'Z'.toNat then c + 32 else c)

theorem lower_name (s : Str) (h : s.all isNameChar) : lower s = s := by
  refine (List.map_congr_left (fun c hc => ?_)).trans (List.map_id s)
  have hname := List.all_eq_true.mp h c hc
  rw [isNameChar, decide_eq_true_eq] at hname
  rw [if_neg]
  · rfl
  · simp only [Char.reduceToNat] at hname ⊢
    omega

def str : Json → Str := fun _ => []

/-- A click, after some prose. -/
def click : Str := .of "Sure: \x7b\"action\": \"left_click\"\x7d"

theorem click_open : ∀ j < click.length, (click[j]?).any isOpen = true → j = 6 := by decide

theorem click_raiseFree : RaiseFree 50 click := by
  intro j htried
  rw [Tried] at htried
  obtain ⟨⟨c, hc, hopen⟩, -⟩ := htried
  obtain rfl := click_open j (List.getElem?_eq_some_iff.mp hc).1 (by rw [hc]; exact hopen)
  intro h
  have hok : (Json.raw_decode 50 (click.drop 6)).toBool = true := by decide +kernel
  rw [h] at hok
  cases hok

theorem click_reached : ReachesExecuted 50 str 50 click := by
  intro a m ha hmalformed hm
  have hafter : After NotOpen click m := by
    have hm' : m = click.drop 6 := Option.some.inj (hm.symm.trans (by decide))
    rw [hm']
    refine ⟨click.take 6, [], by rw [List.append_nil, List.take_append_drop], ?_⟩
    unfold NotOpen
    decide
  rw [executed] at ha
  obtain ⟨v, hv, hdict⟩ := Option.bind_eq_some_iff.mp ha
  obtain ⟨rfl, -⟩ := from_dict_some hdict
  rw [parse_action_json, hmalformed, hm] at hv
  cases hloads : Json.loads 50 m with
  | error e =>
      rw [Option.bind_some, hloads] at hv
      cases hv
  | ok v =>
      rw [Option.bind_some, hloads] at hv
      cases hv
      obtain ⟨s, rest, hafter', hdecode⟩ := after_loads hloads
      exact reached_of_after click_raiseFree (hafter.trans hafter') hdecode

theorem screens_of_reached_click : Screens lower 50 str 50 click [] :=
  screens_of_reached lower 50 str 50 click [] lower_name click_raiseFree click_reached

/-- An elevated launch, in a list nine levels deep. -/
def nested : Str :=
  .of "x [[[[[[[[[\x7b\"action\": \"run_elevated\"\x7d]]]]]]]]]"

/-- The executor takes the object out of the list, which the scan does not go
down far enough to find. -/
theorem not_screens_nested : ¬ ∀ text granted, Screens lower 50 str 50 text granted := by
  intro h
  have hfound : (json_objects 50 nested).map List.isEmpty = some true := by decide +kernel
  have hkind : (executed str 50 nested).map Action.kind = some (.of "run_elevated") := by
    decide +kernel
  obtain ⟨found, hobjects, hempty⟩ := Option.map_eq_some_iff.mp hfound
  obtain ⟨a, ha, hrun⟩ := Option.map_eq_some_iff.mp hkind
  refine (h nested []).forbidden_ne a ha (by rw [hrun]; decide) ?_
  rw [forbidden, hobjects, List.isEmpty_iff.mp hempty]
  rfl

end Answer

end Secdogie.Inference
