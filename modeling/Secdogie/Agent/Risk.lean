/-
# `Secdogie.Agent.Risk` — which actions are confirmed, and what they press

An action is confirmed in every mode if `is_high_risk` holds of it.  For the
kind `key` it reads the names of the keys: that is a combination that saves,
deletes, closes or sends, spelt with the names it lists (`is_high_risk_key`).
The same keys can be held down by other actions, and the library has other
names for them; `confirmed_iff` says when what an action presses is confirmed.
-/
import Secdogie.Agent.Execution

namespace Secdogie.Agent

/-- `_BENIGN` -/
def BENIGN : List ActionKind := [.wait, .screenshot, .look]

def HIGH_RISK_KINDS : List ActionKind := [.open, .run_elevated]

/-- `bool(keys_lower & names)` -/
def among (keys_lower names : List String) : Bool := names.any fun n => n ∈ keys_lower

def is_high_risk (lower : String → String) (a : TypedAction) : Bool :=
  if a.kind ∈ HIGH_RISK_KINDS then true
  else
    let keys := a.keys.getD []
    if a.kind = .key ∧ keys ≠ [] then
      let keys_lower := keys.map lower
      let has_mod := among keys_lower ["ctrl", "control", "command", "cmd", "alt", "option"]
      if among keys_lower ["s"] && has_mod then true
      else if among keys_lower ["delete", "backspace"] then true
      else if among keys_lower ["f4"] && among keys_lower ["alt", "option"] then true
      else if among keys_lower ["w"] && among keys_lower ["ctrl", "control", "command", "cmd"] then true
      else among keys_lower ["enter", "return"] &&
        among keys_lower ["ctrl", "control", "command", "cmd"]
    else false

/-- How the operator runs the agent. -/
structure Mode where
  gui : Bool
  confirm_each : Bool
  auto : Bool

/-- Whether `run` asks before it executes the action. -/
def needs_confirm (lower : String → String) (mode : Mode) (a : TypedAction) : Bool :=
  let force_confirm := is_high_risk lower a
  if mode.gui && !mode.confirm_each then force_confirm
  else decide (a.kind ∉ BENIGN) && (!mode.auto || force_confirm)

/-! ## The combinations -/

/-- The keys that are down make a combination that saves, deletes, closes or sends. -/
def Risky (down : Key → Prop) : Prop :=
  (down .s ∧ (down .ctrl ∨ down .command ∨ down .alt ∨ down .option)) ∨
  (down .delete ∨ down .backspace) ∨
  (down .f4 ∧ (down .alt ∨ down .option)) ∨
  (down .w ∧ (down .ctrl ∨ down .command)) ∨
  (down .enter ∧ (down .ctrl ∨ down .command))

theorem Risky.mono {down down' : Key → Prop} (h : Risky down) (hsub : ∀ k, down k → down' k) :
    Risky down' := by
  rcases h with ⟨h, hm⟩ | h | ⟨h, hm⟩ | ⟨h, hm⟩ | ⟨h, hm⟩
  · exact .inl ⟨hsub _ h, hm.imp (hsub _) (Or.imp (hsub _) (Or.imp (hsub _) (hsub _)))⟩
  · exact .inr (.inl (h.imp (hsub _) (hsub _)))
  · exact .inr (.inr (.inl ⟨hsub _ h, hm.imp (hsub _) (hsub _)⟩))
  · exact .inr (.inr (.inr (.inl ⟨hsub _ h, hm.imp (hsub _) (hsub _)⟩)))
  · exact .inr (.inr (.inr (.inr ⟨hsub _ h, hm.imp (hsub _) (hsub _)⟩)))

/-- A combination is a combination of two keys or is one of two single keys. -/
theorem risky_singleton {k : Key} : Risky (· = k) ↔ k = .delete ∨ k = .backspace := by
  constructor
  · rintro (⟨rfl, h⟩ | h | ⟨rfl, h⟩ | ⟨rfl, h⟩ | ⟨rfl, h⟩)
    · simp at h
    · exact h.imp Eq.symm Eq.symm
    · simp at h
    · simp at h
    · simp at h
  · exact fun h => .inr (.inl (h.imp Eq.symm Eq.symm))

theorem not_risky_empty {down : Key → Prop} (h : ∀ k, ¬ down k) : ¬ Risky down := by
  rintro (⟨hk, -⟩ | hk | ⟨hk, -⟩ | ⟨hk, -⟩ | ⟨hk, -⟩)
  · exact h _ hk
  · exact hk.elim (h _) (h _)
  · exact h _ hk
  · exact h _ hk
  · exact h _ hk

/-- The names of a key that `is_high_risk` lists. -/
def spellings : Key → List String
  | .ctrl => ["ctrl", "control"]
  | .command => ["command", "cmd"]
  | .alt => ["alt"]
  | .option => ["option"]
  | .delete => ["delete"]
  | .backspace => ["backspace"]
  | .f4 => ["f4"]
  | .s => ["s"]
  | .w => ["w"]
  | .enter => ["enter", "return"]
  | .other _ => []

/-- The key is among some names, by one that is listed. -/
def Spelt (names : List String) (k : Key) : Prop := ∃ n ∈ spellings k, n ∈ names

theorem among_iff {names l : List String} : among l names = true ↔ ∃ n ∈ names, n ∈ l := by
  rw [among, List.any_eq_true]
  exact exists_congr fun n => and_congr_right fun _ => decide_eq_true_iff

theorem among_append {l names names' : List String} :
    among l (names ++ names') = (among l names || among l names') := List.any_append

/-- For the kind `key`, high risk is a combination in the listed names. -/
theorem is_high_risk_key {lower : String → String} {a : TypedAction} (hkind : a.kind = .key) :
    is_high_risk lower a = true ↔ Risky (Spelt ((a.keys.getD []).map lower)) := by
  have hnot : a.kind ∉ HIGH_RISK_KINDS := by
    rw [hkind]
    decide
  rw [is_high_risk, if_neg hnot]
  by_cases hkeys : a.keys.getD [] = []
  · rw [hkeys]
    refine iff_of_false ?_ (not_risky_empty fun k ⟨n, _, hn⟩ => List.not_mem_nil hn)
    simp
  · dsimp only
    rw [if_pos ⟨hkind, hkeys⟩]
    have hmods : ["ctrl", "control", "command", "cmd", "alt", "option"] =
        spellings .ctrl ++ (spellings .command ++ (spellings .alt ++ spellings .option)) := rfl
    have hclear : ["delete", "backspace"] = spellings .delete ++ spellings .backspace := rfl
    have halt : ["alt", "option"] = spellings .alt ++ spellings .option := rfl
    have hctrl : ["ctrl", "control", "command", "cmd"] = spellings .ctrl ++ spellings .command := rfl
    have hs : ["s"] = spellings .s := rfl
    have hf4 : ["f4"] = spellings .f4 := rfl
    have hw : ["w"] = spellings .w := rfl
    have henter : ["enter", "return"] = spellings .enter := rfl
    rw [hmods, hclear, halt, hctrl, hs, hf4, hw, henter]
    simp only [Bool.if_true_left, Bool.or_eq_true, Bool.and_eq_true, decide_eq_true_iff, among_append,
      among_iff]
    rfl

/-- Where the risk is high, every mode asks. -/
theorem needs_confirm_of_high {lower : String → String} {a : TypedAction}
    (h : is_high_risk lower a = true) (mode : Mode) : needs_confirm lower mode a = true := by
  have hbenign : a.kind ∉ BENIGN := by
    intro hmem
    have hnot : a.kind ∉ HIGH_RISK_KINDS ∧ a.kind ≠ .key := by
      simp only [BENIGN, List.mem_cons, List.not_mem_nil, or_false] at hmem
      rcases hmem with hk | hk | hk
      all_goals
        rw [hk]
        decide
    rw [is_high_risk, if_neg hnot.1] at h
    dsimp only at h
    rw [if_neg fun hk => hnot.2 hk.1] at h
    exact Bool.false_ne_true h
  rw [needs_confirm, h]
  split_ifs
  · rfl
  · rw [decide_eq_true hbenign, Bool.or_true, Bool.and_true]

/-! ## What is pressed -/

variable {K : Keyboard} {platform : Platform} {a : TypedAction}

/-- The keys with these names. -/
def Named (K : Keyboard) (names : List String) (k : Key) : Prop := ∃ n ∈ names, K.find n = some k

/-- Executing the action holds down a combination at one time. -/
abbrev PressesRisky (K : Keyboard) (platform : Platform) (a : TypedAction) : Prop :=
  Presses K platform a fun held => Risky (· ∈ held)

/-- Events that first bring some keys down, and no others. -/
theorem risky_downs {keys : List Key} {es : List KeyEvent} (hno : ∀ k, .down k ∉ es) :
    (∃ held ∈ states [] (keys.map .down ++ es), Risky (· ∈ held)) ↔ Risky (· ∈ keys) := by
  constructor
  · rintro ⟨held, hmem, hrisky⟩
    refine hrisky.mono fun k hk => ?_
    rcases down_of_mem_states hmem k hk with hin | hin
    · exact absurd hin List.not_mem_nil
    · rcases List.mem_append.mp hin with hin | hin
      · obtain ⟨j, hj, heq⟩ := List.mem_map.mp hin
        exact KeyEvent.down.inj heq ▸ hj
      · exact absurd hin (hno k)
  · intro hrisky
    obtain ⟨held, hmem, hall, -⟩ := states_downs es keys []
    exact ⟨held, hmem, hrisky.mono hall⟩

theorem risky_quiet {es : List KeyEvent} (hno : ∀ k, .down k ∉ es) :
    ¬ ∃ held ∈ states [] es, Risky (· ∈ held) := by
  rw [← List.nil_append es, ← List.map_nil (f := KeyEvent.down), risky_downs hno]
  exact not_risky_empty fun k hk => List.not_mem_nil hk

theorem named_iff {names : List String} {k : Key} : k ∈ names.filterMap K.find ↔ Named K names k :=
  List.mem_filterMap

theorem risky_chord (names : List String) :
    (∃ held ∈ states [] (chord K names), Risky (· ∈ held)) ↔ Risky (Named K names) := by
  rw [chord, risky_downs]
  · exact ⟨fun h => h.mono fun k => named_iff.mp, fun h => h.mono fun k => named_iff.mpr⟩
  · intro k hk
    obtain ⟨j, -, heq⟩ := List.mem_map.mp hk
    exact nomatch heq

/-- Characters that are typed one by one. -/
theorem risky_typed : ∀ cs : List Char,
    (∃ held ∈ states [] (cs.flatMap fun c => chord K [String.singleton c]), Risky (· ∈ held)) ↔
      ∃ c ∈ cs, K.find (String.singleton c) = some .delete ∨ K.find (String.singleton c) = some .backspace
  | [] => by
      refine iff_of_false (risky_quiet fun k hk => List.not_mem_nil hk) ?_
      rintro ⟨c, hc, -⟩
      exact List.not_mem_nil hc
  | c :: cs => by
      rw [List.flatMap_cons, List.exists_mem_cons_iff, ← risky_typed cs, chord, List.filterMap_cons]
      cases hfind : K.find (String.singleton c) with
      | none =>
          rw [or_iff_right fun h => h.elim (fun h => nomatch h) fun h => nomatch h]
          rfl
      | some k =>
          change (∃ held ∈ states [] (.down k :: .up k :: cs.flatMap _), _) ↔ _
          rw [states_press, List.exists_mem_cons_iff, List.exists_mem_cons_iff, Option.some_inj,
            Option.some_inj, ← risky_singleton]
          rw [or_iff_right (not_risky_empty fun k hk => List.not_mem_nil hk)]
          refine or_congr_left ⟨fun h => h.mono fun j => List.mem_singleton.mp,
            fun h => h.mono fun j => List.mem_singleton.mpr⟩

theorem presses_some {calls : List InputCall} {p : List Key → Prop}
    (h : dispatch platform a = some calls) :
    Presses K platform a p ↔ ∃ held ∈ states [] (calls.flatMap (events K)), p held := by
  constructor
  · rintro ⟨calls', heq, hheld⟩
    obtain rfl := Option.some.inj (h.symm.trans heq)
    exact hheld
  · exact fun hheld => ⟨calls, h, hheld⟩

/-- The modifier and the letter with which text is pasted. -/
theorem not_risky_paste : ¬ Risky (Named K ["ctrl", "v"]) := by
  have hall : ∀ k, Named K ["ctrl", "v"] k → k = .ctrl ∨ k = .other "v" := by
    rintro k ⟨n, hn, hk⟩
    rcases List.mem_pair.mp hn with rfl | rfl
    · exact .inl (Option.some.inj (hk.symm.trans K.ctrl))
    · exact .inr (Option.some.inj (hk.symm.trans K.v))
  have hno : ∀ k, k ≠ .ctrl → k ≠ .other "v" → ¬ Named K ["ctrl", "v"] k := fun k h h' hk =>
    (hall k hk).elim h h'
  rintro (⟨h, -⟩ | h | ⟨h, -⟩ | ⟨h, -⟩ | ⟨h, -⟩)
  · exact hno .s (fun h => nomatch h) (fun h => nomatch h) h
  · exact h.elim (hno .delete (fun h => nomatch h) fun h => nomatch h)
      (hno .backspace (fun h => nomatch h) fun h => nomatch h)
  · exact hno .f4 (fun h => nomatch h) (fun h => nomatch h) h
  · exact hno .w (fun h => nomatch h) (fun h => nomatch h) h
  · exact hno .enter (fun h => nomatch h) (fun h => nomatch h) h

/-- What an action that holds down a combination is: a `key` or `hold_key` with its keys, or text
with a character that is one of the two keys that clear. -/
def Combines (K : Keyboard) (a : TypedAction) : Prop :=
  match a.kind with
  | .key | .hold_key => Risky (Named K (a.keys.getD []))
  | .type => isascii (a.text.getD "") = true ∧ ∃ c ∈ (a.text.getD "").toList,
      K.find (String.singleton c) = some .delete ∨ K.find (String.singleton c) = some .backspace
  | _ => False

theorem not_presses_quiet {calls : List InputCall} (h : dispatch platform a = some calls)
    (hquiet : ∀ c ∈ calls, events K c = []) : ¬ PressesRisky K platform a := by
  rw [PressesRisky, presses_some h, List.flatMap_eq_nil_iff.mpr hquiet]
  exact risky_quiet fun k hk => List.not_mem_nil hk

theorem not_presses_raise (h : dispatch platform a = none) : ¬ PressesRisky K platform a := by
  rintro ⟨calls, heq, -⟩
  exact nomatch h.symm.trans heq

theorem pressesRisky_iff (hplatform : platform ≠ .darwin) : PressesRisky K platform a ↔ Combines K a := by
  obtain ⟨r, hr⟩ : ∃ r, dispatch platform a = r := ⟨_, rfl⟩
  have heq := hr
  rw [dispatch, if_neg fun h => hplatform h.1] at heq
  rw [Combines]
  cases hkind : a.kind with
  | key =>
      rw [hkind] at heq
      dsimp only at heq ⊢
      cases hkeys : a.keys.getD [] with
      | nil =>
          rw [hkeys] at heq
          refine iff_of_false (not_presses_quiet (hr.trans heq.symm) fun c hc => absurd hc List.not_mem_nil) ?_
          exact not_risky_empty fun k ⟨n, hn, _⟩ => List.not_mem_nil hn
      | cons n names =>
          rw [hkeys] at heq
          have hevents : ∃ call, dispatch platform a = some [call] ∧ events K call = chord K (n :: names) := by
            cases names with
            | nil => exact ⟨.press n, hr.trans heq.symm, rfl⟩
            | cons m names => exact ⟨.hotkey (n :: m :: names), hr.trans heq.symm, rfl⟩
          obtain ⟨call, hcall, hevents⟩ := hevents
          rw [PressesRisky, presses_some hcall, List.flatMap_cons, List.flatMap_nil, List.append_nil,
            hevents]
          exact risky_chord (n :: names)
  | hold_key =>
      rw [hkind] at heq
      rw [PressesRisky, presses_some (hr.trans heq.symm), List.flatMap_append, List.flatMap_cons, keyDowns, risky_downs]
      · exact ⟨fun h => h.mono fun k => named_iff.mp, fun h => h.mono fun k => named_iff.mpr⟩
      · exact fun k => not_down_keyUps _
  | type =>
      rw [hkind] at heq
      dsimp only at heq ⊢
      by_cases hascii : isascii (a.text.getD "") = true
      · rw [if_pos hascii] at heq
        rw [PressesRisky, presses_some (hr.trans heq.symm), List.flatMap_cons, List.flatMap_nil, List.append_nil,
          and_iff_right hascii]
        exact risky_typed _
      · rw [if_neg hascii] at heq
        rw [PressesRisky, presses_some (hr.trans heq.symm), List.flatMap_cons, List.flatMap_nil, List.append_nil]
        exact iff_of_false (fun h => not_risky_paste ((risky_chord _).mp h)) fun h => hascii h.1
  | «open» =>
      rw [hkind] at heq
      dsimp only at heq
      refine iff_of_false ?_ fun h => h
      split at heq
      · exact not_presses_raise (hr.trans heq.symm)
      · exact not_presses_raise (hr.trans heq.symm)
      · exact not_presses_quiet (hr.trans heq.symm) fun c hc => List.mem_singleton.mp hc ▸ rfl
  | scroll =>
      rw [hkind] at heq
      refine iff_of_false (not_presses_quiet (hr.trans heq.symm) fun c hc => ?_) fun h => h
      have hnonzero : ∀ (n : Option Int) (call : Int → InputCall), (∀ i, events K (call i) = []) →
          ∀ c ∈ nonzero n call, events K c = [] := by
        intro n call hcall c hc
        unfold nonzero at hc
        split at hc
        · exact absurd hc List.not_mem_nil
        · split_ifs at hc
          · exact absurd hc List.not_mem_nil
          · exact List.mem_singleton.mp hc ▸ hcall _
      rcases List.mem_cons.mp hc with rfl | hc
      · rfl
      · rcases List.mem_append.mp hc with hc | hc
        · exact hnonzero _ _ (fun _ => rfl) c hc
        · exact hnonzero _ _ (fun _ => rfl) c hc
  | look | click_element | run_elevated | remember | done | ask_user =>
      rw [hkind] at heq
      exact iff_of_false (not_presses_raise (hr.trans heq.symm)) fun h => h
  | screenshot =>
      rw [hkind] at heq
      exact iff_of_false (not_presses_quiet (hr.trans heq.symm) fun c hc => absurd hc List.not_mem_nil)
        fun h => h
  | _ =>
      rw [hkind] at heq
      refine iff_of_false (not_presses_quiet (hr.trans heq.symm) fun c hc => ?_) fun h => h
      simp only [List.mem_cons, List.not_mem_nil, or_false] at hc
      rcases hc with rfl | rfl
      all_goals rfl

/-- The combination that the action holds down, if any, is one that `is_high_risk` knows: it is no
`hold_key`'s and not typed, and a `key`'s is one in the names it lists too. -/
def Recognized (K : Keyboard) (platform : Platform) (a : TypedAction) : Prop :=
  platform = .darwin ∨
    match a.kind with
    | .key => Risky (Named K (a.keys.getD [])) → Risky (Spelt ((a.keys.getD []).map K.lower))
    | .hold_key => ¬ Risky (Named K (a.keys.getD []))
    | .type => isascii (a.text.getD "") = true → ∀ c ∈ (a.text.getD "").toList,
        K.find (String.singleton c) ≠ some .delete ∧ K.find (String.singleton c) ≠ some .backspace
    | _ => True

/-- What the action presses is confirmed: if it holds down a combination, its risk is high, and
every mode asks for it. -/
def Confirmed (K : Keyboard) (platform : Platform) (a : TypedAction) : Prop :=
  PressesRisky K platform a →
    is_high_risk K.lower a = true ∧ ∀ mode, needs_confirm K.lower mode a = true

theorem not_high_risk {lower : String → String} (hkind : a.kind ≠ .key) (hnot : a.kind ∉ HIGH_RISK_KINDS) :
    is_high_risk lower a = false := by
  rw [is_high_risk, if_neg hnot]
  dsimp only
  rw [if_neg fun h => hkind h.1]

/-- What an action presses is confirmed just when `is_high_risk` knows the combination. -/
theorem confirmed_iff (K : Keyboard) (platform : Platform) (a : TypedAction) :
    Confirmed K platform a ↔ Recognized K platform a := by
  have hconfirmed : Confirmed K platform a ↔
      (PressesRisky K platform a → is_high_risk K.lower a = true) :=
    ⟨fun h hp => (h hp).1, fun h hp => ⟨h hp, needs_confirm_of_high (h hp)⟩⟩
  rw [hconfirmed, Recognized]
  by_cases hplatform : platform = .darwin
  · refine iff_of_true (fun hp => ?_) (.inl hplatform)
    obtain ⟨calls, heq, hheld⟩ := hp
    by_cases hhid : a.kind ∈ DARWIN_HID_KINDS
    · rw [dispatch, if_pos ⟨hplatform, hhid⟩] at heq
      obtain rfl := Option.some.inj heq
      exact absurd hheld (risky_quiet fun k hk => List.not_mem_nil hk)
    · -- the kinds that press keys are all refused
      have hpress : PressesRisky K .linux a := by
        refine ⟨calls, ?_, hheld⟩
        rw [dispatch, if_neg fun h => hhid h.2] at heq
        rwa [dispatch, if_neg fun h => nomatch h.1]
      have hlinux : Platform.linux ≠ .darwin := Platform.noConfusion
      have hcombines := (pressesRisky_iff hlinux).mp hpress
      rw [Combines] at hcombines
      cases hkind : a.kind with
      | key | hold_key | type => exact absurd (by rw [hkind]; decide) hhid
      | _ => rw [hkind] at hcombines; exact hcombines.elim
  · rw [pressesRisky_iff hplatform, Combines, or_iff_right hplatform]
    cases hkind : a.kind with
    | key => exact imp_congr_right fun _ => is_high_risk_key hkind
    | hold_key =>
        have hlow : is_high_risk K.lower a = false :=
          not_high_risk (by rw [hkind]; decide) (by rw [hkind]; decide)
        rw [hlow]
        exact ⟨fun h hrisky => Bool.false_ne_true (h hrisky), fun h hrisky => absurd hrisky h⟩
    | type =>
        have hlow : is_high_risk K.lower a = false :=
          not_high_risk (by rw [hkind]; decide) (by rw [hkind]; decide)
        rw [hlow]
        constructor
        · exact fun h hascii c hc => not_or.mp fun hclear => Bool.false_ne_true (h ⟨hascii, c, hc, hclear⟩)
        · rintro h ⟨hascii, c, hc, hclear⟩
          exact absurd hclear (not_or.mpr (h hascii c hc))
    | _ => exact iff_of_true (fun h => h.elim) trivial

namespace Held

/-- Some of the library's names, and a text in lower case. -/
def keyboard : Keyboard where
  lower name := name
  key
    | "ctrl" | "ctrlleft" | "ctrlright" => some .ctrl
    | "s" => some .s
    | "v" => some (.other "v")
    | _ => none
  ctrl := rfl
  v := rfl

/-- The two keys that save, held down instead of pressed. -/
def save : TypedAction := { kind := .hold_key, keys := some ["ctrl", "s"] }

/-- They are down together, and nothing asks for it under `--auto`. -/
theorem save_not_confirmed :
    PressesRisky keyboard .linux save ∧ is_high_risk keyboard.lower save = false ∧
    needs_confirm keyboard.lower ⟨false, false, true⟩ save = false ∧
    ¬ Confirmed keyboard .linux save := by
  have hdown : Named keyboard ["ctrl", "s"] .ctrl ∧ Named keyboard ["ctrl", "s"] .s :=
    ⟨⟨"ctrl", List.mem_cons_self, rfl⟩, ⟨"s", List.mem_cons_of_mem _ List.mem_cons_self, rfl⟩⟩
  have hcombines : Combines keyboard save := Or.inl ⟨hdown.2, .inl hdown.1⟩
  have hlinux : Platform.linux ≠ .darwin := Platform.noConfusion
  have hpress : PressesRisky keyboard .linux save := (pressesRisky_iff hlinux).mpr hcombines
  exact ⟨hpress, rfl, rfl, fun h => Bool.false_ne_true (h hpress).1⟩

end Held

end Secdogie.Agent
