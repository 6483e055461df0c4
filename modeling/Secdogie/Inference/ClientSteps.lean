/-
# `Secdogie.Inference.ClientSteps` — what a client's step makes of an ask

A step touches an ask only while it is open: the index of request hashes leads
to open asks alone (`Open`).  What a step makes of one ask is `Goes`: a decided
ask stays as it is, the number of requests and of frames stays within bounds,
and what is left before it has to be decided does not grow.  There is one lemma
for each handler; each of them rests on what submitting does (`submit_acts`).
-/
import Secdogie.Inference.Client

namespace Secdogie.Inference

open Secdogie.Graph Secdogie.Identity

namespace Client

section

variable {F : Type} [PyNumber F] (U : ClientConfig F)

/-! ## Bounds of an ask -/

/-- How many requests an ask may sign before it is refused. -/
def budget : Nat := U.max_tries.toNat

/-- How many of the standby nodes it did not give up. -/
def spare (ask : Ask F) : Nat := (U.standby.filter (fun d => decide (d ∉ ask.unresponsive))).length

/-- It waits for, or went through, a standby node that it did not give up. -/
def Via (ask : Ask F) : Prop :=
  ∃ d, ask.tried.getLast? = some d ∧ d ∈ U.standby ∧ d ∉ ask.unresponsive

/-- The requests it signed, the last of them only in lockdown. -/
structure Paced (ask : Ask F) : Prop where
  tries : ask.tries ≤ budget U + 1
  spent : ask.mode ≠ MODE_LOCKDOWN ∨ ask.waiting_dir = true → ask.tries ≤ budget U

/-- The frames it sent, while nothing was raised. -/
structure Steady (ask : Ask F) : Prop where
  tried : ask.tried.length + spare U ask + (if ask.waiting_dir then 0 else 1) ≤
    (max U.fanout 1 + 1) * ask.tries + U.standby.length + 1
  waits : ask.mode = MODE_LOCKDOWN → ask.outcome = none → Via U ask

/-- What is left before the ask has to be decided: every time its time is up,
it signs a request, gives up a standby node or goes into lockdown. -/
def left (ask : Ask F) : Nat :=
  2 * (budget U + 1 - ask.tries) + spare U ask + (if ask.mode = MODE_LOCKDOWN then 0 else 1)

/-- Which answers are judged, by which safety layer and when. -/
abbrev Judged (F : Type) := SafetyLayer F → List (Value F × Value F) → F → Prop

/-- The answers that an accepted outcome rests on. -/
def Justified (L : Judged F) (ask : Ask F) (o : Outcome) : Prop :=
  ∃ (s : SafetyLayer F) (request : Value F) (items : List (Value F × Value F)) (now : F) (needed : Int)
    (verdict : Verdict F), L s items now ∧
    (s.adjudicate U.toSafetyConfig request items now (some needed) none).1 = .ok verdict ∧
    verdict.status = .accepted ∧ o.output = verdict.output ∧ o.providers = verdict.providers ∧
    ask.request = some request ∧ ask.quorum ≤ needed ∧ (o.mode = MODE_LOCKDOWN → LOCKDOWN_QUORUM ≤ needed)

/-- What a step makes of an ask. -/
structure Goes (L : Judged F) (fate : Fate) (ask ask' : Ask F) : Prop where
  final : ask.outcome ≠ none → ask' = ask
  paced : Paced U ask → Paced U ask'
  steady : fate ≠ .unsigned → Steady U ask → Steady U ask'
  left : fate ≠ .unsigned → Steady U ask → ask'.outcome = none → left U ask' ≤ left U ask
  justified : ask.outcome = none → ∀ o, ask'.outcome = some o → o.status = .accepted → Justified U L ask' o

/-- What submitting makes of an open ask. -/
structure Submitted (fate : Fate) (ask ask' : Ask F) : Prop where
  paced : Paced U ask → Paced U ask'
  tried : fate ≠ .unsigned → ask.tried.length + spare U ask + (if ask.waiting_dir then 0 else 1) ≤
    (max U.fanout 1 + 1) * ask.tries + U.standby.length + 1 → Steady U ask'
  left : fate ≠ .unsigned → ask'.outcome = none → left U ask' + (if ask.mode = MODE_LOCKDOWN then 0 else 1) ≤ left U ask
  refused : ∀ o, ask'.outcome = some o → o.status ≠ .accepted

end

section

variable {F : Type} [PyNumber F] {U : ClientConfig F} {L : Judged F}

theorem returned_ne_unsigned : Fate.returned ≠ .unsigned := by decide

theorem Goes.refl (fate : Fate) (ask : Ask F) : Goes U L fate ask ask where
  final _ := rfl
  paced h := h
  steady _ h := h
  left _ _ _ := le_rfl
  justified hnone o ho := by
    rw [hnone] at ho
    cases ho

theorem Goes.trans {fate : Fate} {ask ask₁ ask₂ : Ask F} (h : Goes U L .returned ask ask₁)
    (h' : Goes U L fate ask₁ ask₂) : Goes U L fate ask ask₂ where
  final hdone := by
    obtain rfl := h.final hdone
    exact h'.final hdone
  paced hp := h'.paced (h.paced hp)
  steady hok hw := h'.steady hok (h.steady returned_ne_unsigned hw)
  left hok hw hnone := by
    have hnone₁ : ask₁.outcome = none := by
      by_contra hdone
      rw [h'.final hdone] at hnone
      exact hdone hnone
    exact (h'.left hok (h.steady returned_ne_unsigned hw) hnone).trans (h.left returned_ne_unsigned hw hnone₁)
  justified hnone o ho haccepted := by
    by_cases hdone : ask₁.outcome = none
    · exact h'.justified hdone o ho haccepted
    · obtain rfl := h'.final hdone
      exact h.justified hnone o ho haccepted

/-! ## Open asks -/

/-- The ask is open and its current request has this hash. -/
structure Sent (ask : Ask F) (r : String) : Prop where
  undecided : ask.outcome = none
  rhash : ask.rhash = r
  named : r ≠ ""
  waiting : ask.waiting_dir = true → ask.mode ≠ MODE_LOCKDOWN
  asked : ∃ request quorum, ask.request = some request ∧ getInt request "quorum" = some quorum ∧
    ask.quorum ≤ quorum

/-- The index leads to open asks, each under the hash of its current request. -/
def Open (c : Client F) : Prop :=
  ∀ r h, c.by_rhash.get r = some h → ∃ ask, c.asks.get h = some ask ∧ Sent ask r

/-- The same, with the ask of one handle in hand. -/
structure InHand (c : Client F) (handle : String) (ask : Ask F) : Prop where
  key : c.asks.get handle ≠ none
  own : ∀ r, c.by_rhash.get r = some handle → Sent ask r
  others : ∀ r h, c.by_rhash.get r = some h → h ≠ handle → ∃ ask, c.asks.get h = some ask ∧ Sent ask r

omit [PyNumber F] in
theorem Open.inHand {c : Client F} (h : Open c) {handle : String} {ask : Ask F}
    (hget : c.asks.get handle = some ask) : InHand c handle ask where
  key := by
    rw [hget]
    exact Option.some_ne_none _
  own r hr := by
    obtain ⟨ask', hget', hsent⟩ := h r handle hr
    rw [Option.some.inj (hget.symm.trans hget')]
    exact hsent
  others r h' hr _ := h r h' hr

omit [PyNumber F] in
theorem InHand.congr {c : Client F} {handle : String} {ask ask' : Ask F} (h : InHand c handle ask)
    (hsent : ∀ r, Sent ask r → Sent ask' r) : InHand c handle ask' :=
  ⟨h.key, fun r hr => hsent r (h.own r hr), h.others⟩

omit [PyNumber F] in
/-- A client that has less in its index, and the asks of the other. -/
theorem InHand.mono {c c' : Client F} {handle : String} {ask : Ask F} (h : InHand c handle ask)
    (hasks : c'.asks = c.asks) (hindex : ∀ r h, c'.by_rhash.get r = some h → c.by_rhash.get r = some h) :
    InHand c' handle ask where
  key := by
    rw [hasks]
    exact h.key
  own r hr := h.own r (hindex r handle hr)
  others r h' hr hne := by
    rw [hasks]
    exact h.others r h' (hindex r h' hr) hne

/-- What a step does to the ask of a handle; the other asks stay as they are. -/
structure Acts (R : Fate → Ask F → Ask F → Prop) (c : Client F) (handle : String) (ask : Ask F)
    (res : Step F) : Prop where
  open_ : Open res.1
  keys : res.1.asks.keys = c.asks.keys
  self : ∃ ask', res.1.asks.get handle = some ask' ∧ R res.2 ask ask'
  others : ∀ h, h ≠ handle → res.1.asks.get h = c.asks.get h

omit [PyNumber F] in
theorem Acts.mono {R R' : Fate → Ask F → Ask F → Prop} {c c' : Client F} {handle : String} {ask ask' : Ask F}
    {res : Step F} (h : Acts R c handle ask res) (hasks : c.asks = c'.asks)
    (hR : ∀ fate ask₁, R fate ask ask₁ → R' fate ask' ask₁) : Acts R' c' handle ask' res where
  open_ := h.open_
  keys := by rw [h.keys, hasks]
  self := by
    obtain ⟨ask₁, hget, hrel⟩ := h.self
    exact ⟨ask₁, hget, hR _ _ hrel⟩
  others h' hne := by rw [h.others h' hne, hasks]

omit [PyNumber F] in
/-- An ask is put back. -/
theorem InHand.acts {R : Fate → Ask F → Ask F → Prop} {c c' : Client F} {handle : String} {ask ask' : Ask F}
    {fate : Fate} (h : InHand c' handle ask') (hasks : c'.asks = c.asks) (hR : R fate ask ask') :
    Acts R c handle ask (c'.put handle ask', fate) where
  open_ r h' hr := by
    by_cases heq : h' = handle
    · subst heq
      exact ⟨ask', by rw [put, OrderedDict.get_set, if_pos rfl], h.own r hr⟩
    · rw [put, OrderedDict.get_set, if_neg heq]
      exact h.others r h' hr heq
  keys := by
    obtain ⟨ask₀, hget⟩ := Option.ne_none_iff_exists'.mp h.key
    rw [put, OrderedDict.keys_set, if_pos (OrderedDict.mem_keys.mpr ⟨ask₀, hget⟩), hasks]
  self := ⟨ask', by rw [put, OrderedDict.get_set, if_pos rfl], hR⟩
  others h' hne := by rw [put, OrderedDict.get_set, if_neg hne, hasks]

omit [PyNumber F] in
/-- An ask is decided. -/
theorem InHand.acts_finish {R : Fate → Ask F → Ask F → Prop} {c c' : Client F} {handle : String}
    {ask ask' : Ask F} (h : InHand c' handle ask') (hasks : c'.asks = c.asks) (outcome : Outcome)
    (hR : R .returned ask { ask' with outcome := some outcome }) :
    Acts R c handle ask (c'.finish handle ask' outcome, .returned) where
  open_ r h' hr := by
    rw [finish, OrderedDict.get_pop] at hr
    split_ifs at hr with hrhash
    have hne : h' ≠ handle := by
      rintro rfl
      exact hrhash (h.own r hr).rhash.symm
    rw [finish, OrderedDict.get_set, if_neg hne]
    exact h.others r h' hr hne
  keys := by
    obtain ⟨ask₀, hget⟩ := Option.ne_none_iff_exists'.mp h.key
    rw [finish, OrderedDict.keys_set, if_pos (OrderedDict.mem_keys.mpr ⟨ask₀, hget⟩), hasks]
  self := ⟨_, by rw [finish, OrderedDict.get_set, if_pos rfl], hR⟩
  others h' hne := by rw [finish, OrderedDict.get_set, if_neg hne, hasks]

theorem refused_ne_accepted : OutcomeStatus.refused ≠ .accepted := by decide

theorem intercepted_ne_accepted : OutcomeStatus.intercepted ≠ .accepted := by decide

/-! ## Signing -/

theorem digest_ne_empty {C : Crypto} (h32 : ∀ data, (C.sha256 data).length = 32) (v : Value F) :
    digest C v ≠ "" := by
  intro h
  rw [digest] at h
  have hnil : (C.sha256 (canonical v)).flatMap hexByte = [] := by
    rw [← String.toList_ofList (l := (C.sha256 (canonical v)).flatMap hexByte), h]
    rfl
  have hlen := h32 (canonical v)
  cases hbytes : C.sha256 (canonical v) with
  | nil =>
      rw [hbytes] at hlen
      cases hlen
  | cons b bytes =>
      rw [hbytes, List.flatMap_cons, hexByte] at hnil
      cases hnil

/-- The request says the quorum that was asked for. -/
theorem quorum_of_make_request {req_id : String} {ask : Ask F} {quorum : Int} {pins : List (String × String)}
    {now : F} {request : Value F} (h : make_request U req_id ask quorum pins now = some request) :
    getInt request "quorum" = some quorum := by
  rw [make_request] at h
  split at h
  · obtain rfl := Option.some.inj h
    have hget : get (sign_payload U.identity (request_body U req_id ask quorum pins now)) "quorum" =
        some (.int quorum) :=
      (objGet_objInsert_ne (by decide) _ _).trans ((objGet_objInsert_ne (by decide) _ _).trans rfl)
    rw [getInt, hget]
  · cases h

theorem sign_spec (h32 : ∀ data, (U.C.sha256 data).length = 32) {c : Client F} {handle : String} {ask : Ask F}
    {quorum : Int} (h : InHand c handle ask) (hnone : ask.outcome = none)
    (hwaiting : ask.waiting_dir = true → ask.mode ≠ MODE_LOCKDOWN) (hquorum : ask.quorum ≤ quorum)
    (pins : List (String × String)) :
    (∃ c', c.sign U handle ask quorum pins = (c', none) ∧ c'.asks = c.asks ∧ InHand c' handle ask) ∨
    ∃ c' request rhash deadline, c.sign U handle ask quorum pins =
        (c', some { ask with request := some request, rhash, tries := ask.tries + 1, deadline }) ∧
      c'.asks = c.asks ∧
      InHand c' handle { ask with request := some request, rhash, tries := ask.tries + 1, deadline } := by
  have hindex : ∀ r h, (if ask.rhash = "" then c.by_rhash else c.by_rhash.pop ask.rhash).get r = some h →
      c.by_rhash.get r = some h ∧ (h = handle → False) := by
    intro r h' hr
    split_ifs at hr with hempty
    · refine ⟨hr, ?_⟩
      rintro rfl
      have hsent := h.own r hr
      exact hsent.named (hsent.rhash.symm.trans hempty)
    · rw [OrderedDict.get_pop] at hr
      split_ifs at hr with hrhash
      refine ⟨hr, ?_⟩
      rintro rfl
      exact hrhash (h.own r hr).rhash.symm
  rw [sign]
  dsimp only
  generalize (if ask.rhash = "" then c.by_rhash else c.by_rhash.pop ask.rhash) = index at hindex ⊢
  cases hrequest : make_request U (U.token c.tokens) ask quorum pins (U.clock c.reads) with
  | none => exact .inl ⟨_, rfl, rfl, h.mono rfl fun r h' hr => (hindex r h' hr).1⟩
  | some request =>
      refine .inr ⟨_, request, digest U.C request, _, rfl, rfl, h.key, fun r hr => ?_, fun r h' hr hne => ?_⟩
      · rw [OrderedDict.get_set] at hr
        split_ifs at hr with hdigest
        · subst hdigest
          exact ⟨hnone, rfl, digest_ne_empty h32 request, hwaiting, request, quorum, rfl,
            quorum_of_make_request hrequest, hquorum⟩
        · exact absurd rfl (hindex r handle hr).2
      · rw [OrderedDict.get_set] at hr
        split_ifs at hr with hdigest
        · exact absurd (Option.some.inj hr).symm hne
        · exact h.others r h' (hindex r h' hr).1 hne

/-! ## Submitting -/

omit [PyNumber F] in
theorem foldl_send (request : Value F) : ∀ (entries : List String) (c : Client F),
    (entries.foldl (fun c entry => c.send entry (.submit request)) c).asks = c.asks ∧
    (entries.foldl (fun c entry => c.send entry (.submit request)) c).by_rhash = c.by_rhash
  | [], _ => ⟨rfl, rfl⟩
  | entry :: entries, c => foldl_send request entries (c.send entry (.submit request))

/-- An open ask that may still sign, sent to the next entries. -/
theorem submit_normal_acts (h32 : ∀ data, (U.C.sha256 data).length = 32) {c : Client F} {handle : String}
    {ask : Ask F} (h : InHand c handle ask) (hnone : ask.outcome = none) (htries : ask.tries < budget U) :
    Acts (Submitted U) c handle ask (c.submit_normal U handle ask) := by
  have hmode : MODE_NORMAL ≠ MODE_LOCKDOWN := by decide
  rw [submit_normal]
  generalize c.fresh U ask = fresh
  dsimp only
  split_ifs with hfresh
  · refine h.acts_finish rfl _ ⟨fun hp => ⟨hp.tries, hp.spent⟩, fun _ htried => ⟨htried, fun _ hopen => ?_⟩,
      fun _ hopen => ?_, fun o ho => ?_⟩
    · cases hopen
    · cases hopen
    · obtain rfl := Option.some.inj ho
      exact refused_ne_accepted
  · have hin : InHand c handle { ask with mode := MODE_NORMAL } :=
      h.congr fun r hr => ⟨hr.undecided, hr.rhash, hr.named, fun _ => hmode, hr.asked⟩
    rcases sign_spec h32 hin hnone (fun _ => hmode) (le_refl ask.quorum) [] with
      ⟨c', hsign, hasks, hin'⟩ | ⟨c', request, rhash, deadline, hsign, hasks, hin'⟩
    · rw [hsign]
      refine hin'.acts hasks ⟨fun hp => ⟨hp.tries, fun _ => htries.le⟩, fun hok => ?_, fun hok => ?_,
        fun o ho => ?_⟩
      · exact absurd rfl hok
      · exact absurd rfl hok
      · rw [hnone] at ho
        cases ho
    · rw [hsign]
      dsimp only [Option.getD_some]
      obtain ⟨hsent, hindex⟩ := foldl_send request (fresh.take U.fanout) c'
      have hfanout : (fresh.take U.fanout).length ≤ max U.fanout 1 :=
        (List.length_take_le _ _).trans (le_max_left _ _)
      have hput := hin'.mono hsent fun r h' hr => by rwa [hindex] at hr
      refine InHand.acts (hput.congr ?_) (hsent.trans hasks)
        ⟨fun _ => ⟨?_, fun _ => htries⟩, fun _ htried => ⟨?_, fun hlock => ?_⟩, fun _ _ => ?_, fun o ho => ?_⟩
      · exact fun r hr => ⟨hr.undecided, hr.rhash, hr.named, hr.waiting, hr.asked⟩
      · exact Nat.succ_le_succ htries.le
      · rw [spare] at htried ⊢
        rw [List.length_append, Nat.mul_succ]
        dsimp only
        omega
      · exact absurd hlock hmode
      · rw [left, left, spare, spare]
        dsimp only
        rw [if_neg hmode]
        omega
      · rw [hnone] at ho
        cases ho

omit [PyNumber F] in
/-- Without the hash of its request, nothing leads to the ask in hand. -/
theorem InHand.popped {c : Client F} {handle : String} {ask : Ask F} (h : InHand c handle ask) (ask' : Ask F) :
    InHand { c with by_rhash := c.by_rhash.pop ask.rhash } handle ask' where
  key := h.key
  own r hr := by
    rw [OrderedDict.get_pop] at hr
    split_ifs at hr with hrhash
    exact absurd (h.own r hr).rhash.symm hrhash
  others r h' hr hne := by
    rw [OrderedDict.get_pop] at hr
    split_ifs at hr with hrhash
    exact h.others r h' hr hne

omit [PyNumber F] in
theorem forwarder_spec {c : Client F} {avoid : List String} {d : String} (h : c.forwarder U avoid = some d) :
    d ∈ U.standby ∧ d ∉ avoid := by
  rw [forwarder] at h
  have hd := List.find?_some h
  simp only [Bool.and_eq_true, decide_eq_true_eq] at hd
  exact ⟨List.mem_of_find?_eq_some h, hd.1.1⟩

/-- An open ask that may still sign, sent through a standby forwarder. -/
theorem submit_lockdown_acts (h32 : ∀ data, (U.C.sha256 data).length = 32) {c : Client F} {handle : String}
    {ask : Ask F} (h : InHand c handle ask) (hnone : ask.outcome = none) (htries : ask.tries ≤ budget U)
    (now : F) : Acts (Submitted U) c handle ask (c.submit_lockdown U handle ask now) := by
  rw [submit_lockdown]
  dsimp only
  have hpopped := h.popped
  generalize hc₁ : { c with by_rhash := c.by_rhash.pop ask.rhash } = c₁ at hpopped ⊢
  have hasks₁ : c₁.asks = c.asks := by rw [← hc₁]
  cases hforwarder : c₁.forwarder U ask.unresponsive with
  | none =>
      refine (hpopped _).acts_finish hasks₁ _ ⟨fun hp => ⟨hp.tries, fun _ => htries⟩,
        fun _ htried => ⟨htried, fun _ hopen => ?_⟩, fun _ hopen => ?_, fun o ho => ?_⟩
      · cases hopen
      · cases hopen
      · obtain rfl := Option.some.inj ho
        exact refused_ne_accepted
  | some d =>
      obtain ⟨hstandby, havoid⟩ := forwarder_spec hforwarder
      have hvia : ∀ l : List String, (l ++ [d]).getLast? = some d := fun l => List.getLast?_concat
      dsimp only
      generalize c₁.pick_pins ask.models (max ask.quorum LOCKDOWN_QUORUM) now ask.unresponsive = pins
      split_ifs with hpins hwaiting
      · refine (hpopped _).acts_finish hasks₁ _ ⟨fun hp => ⟨hp.tries, fun _ => htries⟩,
          fun _ htried => ⟨htried, fun _ hopen => ?_⟩, fun _ hopen => ?_, fun o ho => ?_⟩
        · cases hopen
        · cases hopen
        · obtain rfl := Option.some.inj ho
          exact refused_ne_accepted
      · refine InHand.acts ((hpopped _).mono rfl fun r h' hr => hr) hasks₁ ⟨fun hp => ⟨hp.tries, fun _ => htries⟩,
          fun _ htried => ⟨?_, fun _ _ => ⟨d, hvia _, hstandby, havoid⟩⟩, fun _ _ => ?_, fun o ho => ?_⟩
        · rw [if_neg hwaiting] at htried
          rw [spare] at htried ⊢
          rw [List.length_append, if_pos rfl, List.length_singleton]
          dsimp only
          omega
        · rw [left, left, spare, spare]
          dsimp only
          rw [if_pos rfl]
          omega
        · rw [hnone] at ho
          cases ho
      · rcases sign_spec h32 (hpopped { ask with mode := MODE_LOCKDOWN, awaiting := [], waiting_dir := false }) hnone
            (fun hfalse => by cases hfalse) (le_max_left ask.quorum LOCKDOWN_QUORUM) pins with
          ⟨c', hsign, hasks, hin'⟩ | ⟨c', request, rhash, deadline, hsign, hasks, hin'⟩
        · rw [hsign]
          refine hin'.acts (hasks.trans hasks₁) ⟨fun hp => ⟨hp.tries, fun _ => htries⟩, fun hok => ?_, fun hok => ?_,
            fun o ho => ?_⟩
          · exact absurd rfl hok
          · exact absurd rfl hok
          · rw [hnone] at ho
            cases ho
        · rw [hsign]
          dsimp only [Option.getD_some]
          have hput := hin'.mono (show (c'.send d (.submit request)).asks = c'.asks from rfl) fun r h' hr => hr
          refine InHand.acts (hput.congr ?_) (hasks.trans hasks₁)
            ⟨fun _ => ⟨?_, fun hspent => ?_⟩, fun _ htried => ⟨?_, fun _ _ => ⟨d, hvia _, hstandby, havoid⟩⟩,
              fun _ _ => ?_, fun o ho => ?_⟩
          · exact fun r hr => ⟨hr.undecided, hr.rhash, hr.named, hr.waiting, hr.asked⟩
          · exact Nat.succ_le_succ htries
          · rcases hspent with hmode | hfalse
            · exact absurd rfl hmode
            · cases hfalse
          · have hfanout := le_max_right U.fanout 1
            rw [spare] at htried ⊢
            rw [List.length_append, Nat.mul_succ, List.length_singleton, if_neg Bool.false_ne_true]
            dsimp only
            omega
          · rw [left, left, spare, spare]
            dsimp only
            rw [if_pos rfl]
            omega
          · rw [hnone] at ho
            cases ho

/-- An open ask that is submitted again. -/
theorem submit_acts (h32 : ∀ data, (U.C.sha256 data).length = 32) {c : Client F} {handle : String}
    {ask : Ask F} (h : InHand c handle ask) (hnone : ask.outcome = none) (now : F) :
    Acts (Submitted U) c handle ask (c.submit U handle ask now) := by
  rw [submit, if_neg (by rw [hnone]; exact Bool.false_ne_true)]
  by_cases htries : U.max_tries ≤ ask.tries
  · rw [if_pos htries]
    refine h.acts_finish rfl _ ⟨fun hp => ⟨hp.tries, hp.spent⟩, fun _ htried => ⟨htried, fun _ hopen => ?_⟩,
      fun _ hopen => ?_, fun o ho => ?_⟩
    · cases hopen
    · cases hopen
    · obtain rfl := Option.some.inj ho
      exact refused_ne_accepted
  · have hbudget : ask.tries < budget U := by
      rw [budget]
      omega
    rw [if_neg htries]
    split_ifs
    · exact submit_lockdown_acts h32 h hnone hbudget.le now
    · exact submit_normal_acts h32 h hnone hbudget

/-! ## Steps -/

/-- What every client is, between its steps. -/
structure Fit (U : ClientConfig F) (c : Client F) : Prop where
  index : Open c
  paced : ∀ h ask, c.asks.get h = some ask → Paced U ask

/-- From one client to another, whatever happened to which ask. -/
structure Ran (U : ClientConfig F) (L : Judged F) (c : Client F) (res : Step F) : Prop where
  open_ : Open res.1
  keys : res.1.asks.keys = c.asks.keys
  goes : ∀ h ask, c.asks.get h = some ask → ∃ ask', res.1.asks.get h = some ask' ∧ Goes U L res.2 ask ask'

theorem Ran.refl {c : Client F} (h : Open c) (fate : Fate) : Ran U L c (c, fate) :=
  ⟨h, rfl, fun _ ask hget => ⟨ask, hget, .refl fate ask⟩⟩

theorem Ran.trans {c c₁ : Client F} {res : Step F} (h : Ran U L c (c₁, .returned)) (h' : Ran U L c₁ res) : Ran U L c res where
  open_ := h'.open_
  keys := h'.keys.trans h.keys
  goes h₀ ask hget := by
    obtain ⟨ask₁, hget₁, hgoes⟩ := h.goes h₀ ask hget
    obtain ⟨ask₂, hget₂, hgoes'⟩ := h'.goes h₀ ask₁ hget₁
    exact ⟨ask₂, hget₂, hgoes.trans hgoes'⟩

/-- What happened before touched no ask. -/
theorem Ran.after {c c₁ : Client F} {res : Step F} (h : Ran U L c₁ res) (hasks : c₁.asks = c.asks) : Ran U L c res where
  open_ := h.open_
  keys := by rw [h.keys, hasks]
  goes h' ask hget := h.goes h' ask (by rw [hasks]; exact hget)

omit [PyNumber F] in
theorem Open.same {c c' : Client F} (h : Open c) (hasks : c'.asks = c.asks) (hindex : c'.by_rhash = c.by_rhash) :
    Open c' := by
  intro r h' hr
  rw [hindex] at hr
  rw [hasks]
  exact h r h' hr

omit [PyNumber F] in
theorem Fit.same {c c' : Client F} (h : Fit U c) (hasks : c'.asks = c.asks) (hindex : c'.by_rhash = c.by_rhash) :
    Fit U c' :=
  ⟨h.index.same hasks hindex, fun h' ask hget => h.paced h' ask (by rw [← hasks]; exact hget)⟩

/-- What touches no ask. -/
theorem Ran.same {c c' : Client F} (h : Open c) (hasks : c'.asks = c.asks) (hindex : c'.by_rhash = c.by_rhash)
    (fate : Fate) : Ran U L c (c', fate) :=
  (Ran.refl (h.same hasks hindex) fate).after hasks

theorem Ran.fit {c : Client F} {res : Step F} (h : Ran U L c res) (hfit : Fit U c) : Fit U res.1 where
  index := h.open_
  paced h' ask' hget' := by
    have hkey : h' ∈ c.asks.keys := h.keys ▸ OrderedDict.mem_keys.mpr ⟨ask', hget'⟩
    obtain ⟨ask, hget⟩ := OrderedDict.mem_keys.mp hkey
    obtain ⟨ask₁, hget₁, hgoes⟩ := h.goes h' ask hget
    rw [Option.some.inj (hget'.symm.trans hget₁)]
    exact hgoes.paced (hfit.paced h' ask hget)

theorem Ran.andThen {c : Client F} {s : Step F} {next : Client F → Step F} (h : Ran U L c s) (hfit : Fit U c)
    (hnext : ∀ c', Fit U c' → Ran U L c' (next c')) : Ran U L c (s.andThen next) := by
  obtain ⟨c₁, fate⟩ := s
  cases fate with
  | returned => exact h.trans (hnext c₁ (h.fit hfit))
  | raised => exact h
  | unsigned => exact h

theorem Acts.ran {c : Client F} {handle : String} {ask : Ask F} {res : Step F}
    (h : Acts (Goes U L) c handle ask res) (hget : c.asks.get handle = some ask) : Ran U L c res where
  open_ := h.open_
  keys := h.keys
  goes h' ask₁ hget₁ := by
    by_cases heq : h' = handle
    · subst heq
      obtain rfl := Option.some.inj (hget.symm.trans hget₁)
      exact h.self
    · exact ⟨ask₁, by rw [h.others h' heq]; exact hget₁, .refl _ ask₁⟩

/-- An open ask that was changed and submitted again. -/
theorem Submitted.goes {fate : Fate} {ask ask₁ ask' : Ask F} (h : Submitted U fate ask₁ ask')
    (hnone : ask.outcome = none) (hpaced : Paced U ask → Paced U ask₁)
    (htried : Steady U ask → ask₁.tried.length + spare U ask₁ + (if ask₁.waiting_dir then 0 else 1) ≤
      (max U.fanout 1 + 1) * ask₁.tries + U.standby.length + 1)
    (hleft : Steady U ask → Client.left U ask₁ ≤ Client.left U ask) : Goes U L fate ask ask' where
  final hdone := absurd hnone hdone
  paced hp := h.paced (hpaced hp)
  steady hok hs := h.tried hok (htried hs)
  left hok hs hopen := (le_of_add_le_left (h.left hok hopen)).trans (hleft hs)
  justified _ o ho haccepted := absurd haccepted (h.refused o ho)

/-- An open ask that is decided. -/
theorem Goes.finish {ask : Ask F} (hnone : ask.outcome = none) (o : Outcome) {awaiting : List String}
    {last_reason : String}
    (hjustified : o.status = .accepted → Justified U L { ask with awaiting, last_reason, outcome := some o } o) :
    Goes U L .returned ask { ask with awaiting, last_reason, outcome := some o } where
  final hdone := absurd hnone hdone
  paced hp := ⟨hp.tries, hp.spent⟩
  steady _ hs := ⟨hs.tried, fun _ hopen => by cases hopen⟩
  left _ _ hopen := by cases hopen
  justified _ o' ho' haccepted := by
    obtain rfl := Option.some.inj ho'
    exact hjustified haccepted

/-- The asks one after the other. -/
theorem each_ran {op : Client F → String → Ask F → Step F}
    (hop : ∀ c handle ask, Fit U c → c.asks.get handle = some ask → Ran U L c (op c handle ask)) :
    ∀ (handles : List String) (c : Client F), Fit U c → Ran U L c (each op handles c)
  | [], c, h => .refl h.index .returned
  | handle :: handles, c, h => by
      rw [each]
      cases hget : c.asks.get handle with
      | none => exact each_ran hop handles c h
      | some ask => exact (hop c handle ask h hget).andThen h fun c' h' => each_ran hop handles c' h'

section

variable (h32 : ∀ data, (U.C.sha256 data).length = 32)

include h32

theorem submit_ran {c : Client F} {handle : String} {ask : Ask F} (h : Open c)
    (hget : c.asks.get handle = some ask) (hnone : ask.outcome = none) (now : F) :
    Ran U L c (c.submit U handle ask now) :=
  ((submit_acts h32 (h.inHand hget) hnone now).mono rfl fun _ _ hs =>
    hs.goes hnone id (·.tried) fun _ => le_rfl).ran hget

theorem submit_lockdown_ran {c : Client F} {handle : String} {ask : Ask F} (h : Open c)
    (hget : c.asks.get handle = some ask) (hnone : ask.outcome = none) (htries : ask.tries ≤ budget U) (now : F) :
    Ran U L c (c.submit_lockdown U handle ask now) :=
  ((submit_lockdown_acts h32 (h.inHand hget) hnone htries now).mono rfl fun _ _ hs =>
    hs.goes hnone id (·.tried) fun _ => le_rfl).ran hget

theorem on_incident_ran {c : Client F} (h : Fit U c) (now : F) : Ran U L c (c.on_incident U now) := by
  refine each_ran (fun c handle ask hfit hget => ?_) _ c h
  split_ifs with hgo
  · exact submit_ran h32 hfit.index hget (Option.isNone_iff_eq_none.mp hgo.1) now
  · exact .refl hfit.index .returned

theorem on_directory_ran {c : Client F} (h : Fit U c) (now : F) : Ran U L c (c.on_directory U now) := by
  refine each_ran (fun c handle ask hfit hget => ?_) _ c h
  split_ifs with hgo
  · exact submit_lockdown_ran h32 hfit.index hget (Option.isNone_iff_eq_none.mp hgo.2)
      ((hfit.paced handle ask hget).spent (.inr hgo.1)) now
  · exact .refl hfit.index .returned

theorem absorb_ran {c : Client F} (h : Fit U c) (obj : Value F) : Ran U L c (c.absorb U obj) := by
  rw [absorb]
  dsimp only
  split_ifs with hincident hnews hreset hrevocation
  · exact .after (on_incident_ran h32 (h.same (by rfl) (by rfl)) _) (by rfl)
  · exact .same h.index (by rfl) (by rfl) .returned
  · exact .same h.index (by rfl) (by rfl) .returned
  · exact .same h.index (by rfl) (by rfl) .returned
  · exact .refl h.index .returned

theorem publish_evidence_ran : ∀ (evidence : List (Kind × Value F)) (c : Client F), Fit U c →
    Ran U L c (publish_evidence U evidence c)
  | [], c, h => .refl h.index .returned
  | (kind, ev) :: evidence, c, h => by
      rw [publish_evidence]
      have h₁ : Fit U { c with reads := c.reads + 1 } := h.same rfl rfl
      exact ((absorb_ran h32 h₁ _).andThen h₁ fun c' h' => publish_evidence_ran evidence c' h').after rfl

/-- An open ask that was changed, and is submitted again. -/
theorem submit_changed_ran {c c₁ : Client F} {handle : String} {ask ask₁ : Ask F} (h : Open c)
    (hasks : c₁.asks = c.asks) (hindex : c₁.by_rhash = c.by_rhash) (hget : c.asks.get handle = some ask)
    (hnone : ask₁.outcome = none) (hsent : ∀ r, Sent ask r → Sent ask₁ r)
    (hgoes : ∀ fate ask', Submitted U fate ask₁ ask' → Goes U L fate ask ask') (now : F) :
    Ran U L c (c₁.submit U handle ask₁ now) := by
  have hin : InHand c₁ handle ask₁ := ((h.inHand hget).mono hasks fun r h' hr => by rwa [hindex] at hr).congr hsent
  exact ((submit_acts h32 hin hnone now).mono hasks hgoes).ran hget

end

omit [PyNumber F] in
/-- When more nodes are given up, no more are left. -/
theorem spare_append_le {ask ask' : Ask F} {more : List String}
    (h : ask'.unresponsive = ask.unresponsive ++ more) : spare U ask' ≤ spare U ask := by
  rw [spare, spare, h]
  refine (List.monotone_filter_right U.standby fun d hd => ?_).length_le
  rw [decide_eq_true_eq] at hd ⊢
  exact fun hmem => hd (List.mem_append_left more hmem)

/-- An open ask for which more nodes are given up, submitted again. -/
theorem Submitted.goes_unresponsive {fate : Fate} {ask ask' : Ask F} {awaiting more : List String}
    {last_reason : String} (h : Submitted U fate
      { ask with awaiting, last_reason, unresponsive := ask.unresponsive ++ more } ask')
    (hnone : ask.outcome = none) : Goes U L fate ask ask' := by
  have hspare : spare U { ask with awaiting, last_reason, unresponsive := ask.unresponsive ++ more } ≤
    spare U ask := spare_append_le rfl
  refine h.goes hnone (fun hp => ⟨hp.tries, hp.spent⟩) (fun hs => ?_) fun _ => ?_
  · have htried := hs.tried
    dsimp only
    omega
  · rw [Client.left, Client.left]
    dsimp only
    omega

/-- An ask that waits for fewer nodes. -/
theorem Goes.awaiting (ask : Ask F) (hnone : ask.outcome = none) (awaiting : List String) (last_reason : String) :
    Goes U L .returned ask { ask with awaiting, last_reason } where
  final hdone := absurd hnone hdone
  paced hp := ⟨hp.tries, hp.spent⟩
  steady _ hs := ⟨hs.tried, hs.waits⟩
  left _ _ _ := le_rfl
  justified _ o ho := by
    rw [hnone] at ho
    cases ho

section

variable (h32 : ∀ data, (U.C.sha256 data).length = 32)

include h32

/-- What is made of the answers to an open ask. -/
theorem judge_ran {c : Client F} (h : Fit U c) {src handle r : String} {ask : Ask F} {request : Value F}
    (hget : c.asks.get handle = some ask) (hsent : Sent ask r) (hrequest : ask.request = some request)
    (items : List (Value F × Value F)) (now : F) (hL : L c.safety items now) : Ran U L c (c.judge U src handle ask request items now) := by
  obtain ⟨request', quorum, hrequest', hquorum, hle⟩ := hsent.asked
  obtain rfl := Option.some.inj (hrequest'.symm.trans hrequest)
  rw [judge]
  rw [hquorum, Option.getD_some]
  generalize hneeded : (if ask.mode = MODE_LOCKDOWN then max quorum (LOCKDOWN_QUORUM : Int) else quorum) = needed
  have hle' : ask.quorum ≤ needed := by
    rw [← hneeded]
    split_ifs
    · exact hle.trans (le_max_left _ _)
    · exact hle
  have hlock : ask.mode = MODE_LOCKDOWN → (LOCKDOWN_QUORUM : Int) ≤ needed := by
    intro hmode
    rw [← hneeded, if_pos hmode]
    exact le_max_right _ _
  generalize hadjudicate : c.safety.adjudicate U.toSafetyConfig request' items now (some needed) none = p
  obtain ⟨res, safety⟩ := p
  dsimp only
  have hin : InHand { c with safety } handle ask := (h.index.inHand hget).mono rfl fun r h' hr => hr
  cases res with
  | error e => exact .same h.index (by rfl) (by rfl) .raised
  | ok verdict =>
      have hfinish : ∀ o : Outcome, o.status ≠ .accepted →
          Ran U L c ({ c with safety }.finish handle ask o, .returned) := fun o ho =>
        .after ((hin.acts_finish rfl o (.finish hsent.undecided o fun haccepted => absurd haccepted ho)).ran hget)
          (by rfl)
      dsimp only
      by_cases hevidence : verdict.evidence ≠ []
      · rw [if_pos hevidence]
        exact (hfinish _ intercepted_ne_accepted).trans
          (publish_evidence_ran h32 _ _ ((hfinish _ intercepted_ne_accepted).fit h))
      · rw [if_neg hevidence]
        cases hstatus : verdict.status with
        | accepted =>
            refine .after ((hin.acts_finish rfl _ (.finish hsent.undecided _ fun _ => ?_)).ran hget) (by rfl)
            exact ⟨c.safety, request', items, now, needed, verdict, hL, by rw [hadjudicate], hstatus, rfl, rfl, hrequest,
              hle', hlock⟩
        | intercepted => exact hfinish _ intercepted_ne_accepted
        | insufficient =>
            dsimp only
            split_ifs with hmode hsrc hlast
            · cases answered items with
              | none => exact .same h.index (by rfl) (by rfl) .raised
              | some providers =>
                  refine submit_changed_ran h32 h.index (by rfl) (by rfl) hget (by exact hsent.undecided) ?_ ?_ now
                  · exact fun r hr => ⟨hr.undecided, hr.rhash, hr.named, hr.waiting, hr.asked⟩
                  · exact fun fate ask' hs => hs.goes_unresponsive hsent.undecided
            · refine submit_changed_ran h32 h.index (by rfl) (by rfl) hget (by exact hsent.undecided) ?_ ?_ now
              · exact fun r hr => ⟨hr.undecided, hr.rhash, hr.named, hr.waiting, hr.asked⟩
              · exact fun fate ask' hs => hs.goes hsent.undecided (fun hp => ⟨hp.tries, hp.spent⟩) (·.tried)
                  fun _ => le_rfl
            · refine .after (Acts.ran (InHand.acts (hin.congr ?_) rfl (.awaiting ask hsent.undecided _ _)) hget) (by rfl)
              exact fun r hr => ⟨hr.undecided, hr.rhash, hr.named, hr.waiting, hr.asked⟩
            · exact .same h.index (by rfl) (by rfl) .returned

omit h32 in
theorem learn_items_same (items : List (Value F × Value F)) : ∀ c : Client F,
    (c.learn_items U items).asks = c.asks ∧ (c.learn_items U items).by_rhash = c.by_rhash := by
  induction items with
  | nil => exact fun c => ⟨rfl, rfl⟩
  | cons p items ih => exact fun c => ih (c.learn U ((get p.2 "lease").getD .null))

omit h32 [PyNumber F] in
/-- What the index leads to. -/
theorem lookup_sent {c : Client F} (h : Open c) {r handle : String} {ask : Ask F}
    (hlookup : ((c.by_rhash.get r).bind fun handle => (c.asks.get handle).map fun ask => (handle, ask)) =
      some (handle, ask)) : c.asks.get handle = some ask ∧ Sent ask r := by
  obtain ⟨handle', hindex, hask⟩ := Option.bind_eq_some_iff.mp hlookup
  obtain ⟨ask', hget, heq⟩ := Option.map_eq_some_iff.mp hask
  obtain ⟨rfl, rfl⟩ := Prod.mk.inj heq
  obtain ⟨ask₁, hget₁, hsent⟩ := h r handle' hindex
  obtain rfl := Option.some.inj (hget.symm.trans hget₁)
  exact ⟨hget, hsent⟩

theorem on_result_ran {c : Client F} (h : Fit U c) (src : String) (f : Value F) (now : F)
    (hL : ∀ items, itemsOf f = some items → L (c.learn_items U items).safety items now) :
    Ran U L c (c.on_result U src f now) := by
  rw [on_result]
  cases hitems : itemsOf f with
  | none => exact .refl h.index .raised
  | some items =>
      obtain ⟨hasks, hindex⟩ := learn_items_same (U := U) items c
      have hjudged := hL items hitems
      dsimp only
      generalize c.learn_items U items = c₁ at hasks hindex hjudged ⊢
      have h₁ : Fit U c₁ := h.same hasks hindex
      refine .after ?_ hasks
      split
      · exact .refl h₁.index .raised
      · exact .refl h₁.index .raised
      · split
        · next handle ask hlookup =>
            obtain ⟨hget, hsent⟩ := lookup_sent h₁.index hlookup
            split
            · exact .refl h₁.index .raised
            · next request hrequest => exact judge_ran h32 h₁ hget hsent hrequest items now hjudged
        · split
          · exact .refl h₁.index .returned
          · next request _ =>
              generalize c₁.safety.adjudicate U.toSafetyConfig request items now none none = p
              obtain ⟨res, safety⟩ := p
              cases res with
              | error e => exact .same h₁.index (by rfl) (by rfl) .raised
              | ok verdict => exact .after (publish_evidence_ran h32 _ _ (h₁.same (by rfl) (by rfl))) (by rfl)
      · exact .refl h₁.index .returned

theorem on_refused_ran {c : Client F} (h : Fit U c) (src : String) (f : Value F) :
    Ran U L c (c.on_refused U src f) := by
  rw [on_refused]
  split
  · exact .refl h.index .raised
  · exact .refl h.index .raised
  · split
    · exact .refl h.index .returned
    · next handle ask hlookup =>
        obtain ⟨hget, hsent⟩ := lookup_sent h.index hlookup
        by_cases hawaiting : ask.outcome.isSome = true ∨ src ∉ ask.awaiting
        · rw [if_pos hawaiting]
          exact .refl h.index .returned
        · rw [if_neg hawaiting]
          dsimp only
          have hin : ∀ awaiting last_reason, InHand c handle { ask with awaiting, last_reason } :=
            fun awaiting last_reason => (h.index.inHand hget).congr fun r hr =>
              ⟨hr.undecided, hr.rhash, hr.named, hr.waiting, hr.asked⟩
          by_cases hintercepted : "intercepted".toList.isPrefixOf ((getStr f "reason").getD "").toList = true
          · rw [if_pos hintercepted]
            refine ((hin _ _).acts_finish rfl _ (.finish hsent.undecided _ fun haccepted => ?_)).ran hget
            exact absurd haccepted intercepted_ne_accepted
          · rw [if_neg hintercepted]
            split_ifs with hlockdown hmore heligible
            · have htries := (h.paced handle ask hget).spent (.inl hlockdown.2)
              refine ((submit_lockdown_acts h32 ((hin _ _).mono (by rfl) fun r h' hr => by exact hr)
                (by exact hsent.undecided) (by exact htries) _).mono (by rfl) fun fate ask' hs => ?_).ran hget
              exact hs.goes hsent.undecided (fun hp => ⟨hp.tries, hp.spent⟩) (·.tried) fun _ => le_rfl
            · exact Acts.ran (InHand.acts (hin _ _) rfl (.awaiting ask hsent.undecided _ _)) hget
            · refine submit_changed_ran h32 h.index (by rfl) (by rfl) hget (by exact hsent.undecided) ?_ ?_ _
              · exact fun r hr => ⟨hr.undecided, hr.rhash, hr.named, hr.waiting, hr.asked⟩
              · exact fun fate ask' hs => hs.goes_unresponsive hsent.undecided
            · refine submit_changed_ran h32 h.index (by rfl) (by rfl) hget (by exact hsent.undecided) ?_ ?_ _
              · exact fun r hr => ⟨hr.undecided, hr.rhash, hr.named, hr.waiting, hr.asked⟩
              · exact fun fate ask' hs => hs.goes hsent.undecided (fun hp => ⟨hp.tries, hp.spent⟩) (·.tried)
                  fun _ => le_rfl
  · exact .refl h.index .returned

end

/-! ## Ticks -/

omit [PyNumber F] in
theorem spare_given_up {ask ask' : Ask F} {d : String} (h : ask'.unresponsive = ask.unresponsive ++ [d])
    (hstandby : d ∈ U.standby) (hd : d ∉ ask.unresponsive) : spare U ask' < spare U ask := by
  rw [spare, spare, h]
  have hfilter : U.standby.filter (fun e => decide (e ∉ ask.unresponsive ++ [d])) =
      (U.standby.filter fun e => decide (e ∉ ask.unresponsive)).filter fun e => decide (e ≠ d) := by
    rw [List.filter_filter]
    refine List.filter_congr fun e _ => ?_
    simp [and_comm]
  rw [hfilter, List.length_filter_lt_length_iff_exists]
  exact ⟨d, List.mem_filter.mpr ⟨hstandby, decide_eq_true hd⟩, by simp⟩

/-- Whose time was up: submitting it again uses up some of what is left. -/
def Timed (U : ClientConfig F) (L : Judged F) (now : F) (fate : Fate) (ask ask' : Ask F) : Prop :=
  Goes U L fate ask ask' ∧ (fate ≠ .unsigned → Steady U ask → ask.outcome = none →
    PyFloat.le ask.deadline now = true → ask'.outcome = none → left U ask' < left U ask)

theorem Submitted.timed {fate : Fate} {ask ask' : Ask F} (now : F) (h : Submitted U fate (given_up ask) ask')
    (hnone : ask.outcome = none) : Timed U L now fate ask ask' := by
  rw [given_up] at h
  cases hlast : ask.tried.getLast? with
  | none =>
      rw [hlast] at h
      refine ⟨h.goes hnone id (·.tried) fun _ => le_rfl, fun hok hs _ _ hopen => ?_⟩
      have hleft := h.left hok hopen
      split_ifs at hleft with hmode
      · obtain ⟨d, hd, -⟩ := hs.waits hmode hnone
        rw [hlast] at hd
        cases hd
      · exact hleft
  | some last =>
      rw [hlast] at h
      dsimp only at h
      split_ifs at h with hmode
      · have hlt : Steady U ask →
            spare U { ask with unresponsive := ask.unresponsive ++ [last], waiting_dir := false } < spare U ask := by
          intro hs
          obtain ⟨d, hd, hstandby, hgiven⟩ := hs.waits hmode hnone
          obtain rfl := Option.some.inj (hlast.symm.trans hd)
          exact spare_given_up rfl hstandby hgiven
        have hleft : Steady U ask →
            Client.left U { ask with unresponsive := ask.unresponsive ++ [last], waiting_dir := false } <
              Client.left U ask := by
          intro hs
          have := hlt hs
          rw [Client.left, Client.left]
          dsimp only
          omega
        refine ⟨h.goes hnone (fun hp => ⟨hp.tries, fun hspent => ?_⟩) (fun hs => ?_) fun hs => (hleft hs).le,
          fun hok hs _ _ hopen => (le_of_add_le_left (h.left hok hopen)).trans_lt (hleft hs)⟩
        · rcases hspent with hne | hfalse
          · exact absurd hmode hne
          · cases hfalse
        · have htried := hs.tried
          have := hlt hs
          rw [if_neg Bool.false_ne_true]
          dsimp only
          omega
      · refine ⟨h.goes hnone id (·.tried) fun _ => le_rfl, fun hok hs _ _ hopen => ?_⟩
        have hleft := h.left hok hopen
        rw [if_neg hmode] at hleft
        exact hleft

section

variable (h32 : ∀ data, (U.C.sha256 data).length = 32)

include h32

theorem tick_acts {c : Client F} {handle : String} {ask : Ask F} (h : Open c)
    (hget : c.asks.get handle = some ask) (now : F) :
    Acts (Timed U L now) c handle ask (if ask.outcome.isNone ∧ PyFloat.le ask.deadline now then
      c.submit U handle (given_up ask) now else (c, .returned)) := by
  split_ifs with hgo
  · have hnone := Option.isNone_iff_eq_none.mp hgo.1
    have hin : InHand c handle (given_up ask) := by
      refine (h.inHand hget).congr fun r hr => ?_
      rw [given_up]
      split
      · exact hr
      · split_ifs
        · exact ⟨hr.undecided, hr.rhash, hr.named, (fun hfalse => by cases hfalse), hr.asked⟩
        · exact hr
    have hnone' : (given_up ask).outcome = none := by
      rw [given_up]
      split
      · exact hnone
      · split_ifs
        · exact hnone
        · exact hnone
    exact (submit_acts h32 hin hnone' now).mono rfl fun _ _ hs => hs.timed now hnone
  · refine ⟨h, rfl, ⟨ask, hget, .refl _ ask, fun _ _ hnone htime _ => absurd ⟨?_, htime⟩ hgo⟩, fun _ _ => rfl⟩
    rw [hnone]
    rfl

end

theorem returned_ne_raised : Fate.returned ≠ .raised := by decide

theorem unsigned_ne_raised : Fate.unsigned ≠ .raised := by decide

theorem submit_normal_fate (c : Client F) (handle : String) (ask : Ask F) :
    (c.submit_normal U handle ask).2 ≠ .raised := by
  rw [submit_normal]
  dsimp only
  split_ifs
  · exact returned_ne_raised
  · split
    · exact unsigned_ne_raised
    · exact returned_ne_raised

theorem submit_lockdown_fate (c : Client F) (handle : String) (ask : Ask F) (now : F) :
    (c.submit_lockdown U handle ask now).2 ≠ .raised := by
  rw [submit_lockdown]
  dsimp only
  split
  · exact returned_ne_raised
  · split_ifs
    · exact returned_ne_raised
    · exact returned_ne_raised
    · split
      · exact unsigned_ne_raised
      · exact returned_ne_raised

/-- Submitting raises nothing but what making the request raises. -/
theorem submit_fate (c : Client F) (handle : String) (ask : Ask F) (now : F) :
    (c.submit U handle ask now).2 ≠ .raised := by
  rw [submit]
  by_cases hdone : ask.outcome.isSome = true
  · rw [if_pos hdone]
    exact returned_ne_raised
  · rw [if_neg hdone]
    by_cases htries : U.max_tries ≤ ask.tries
    · rw [if_pos htries]
      exact returned_ne_raised
    · rw [if_neg htries]
      split_ifs
      · exact submit_lockdown_fate c handle ask now
      · exact submit_normal_fate c handle ask

omit [PyNumber F] in
/-- The asks one after the other, each of them once. -/
theorem each_acts {op : Client F → String → Ask F → Step F} {R : Fate → Ask F → Ask F → Prop}
    (hfate : ∀ c handle ask, (op c handle ask).2 ≠ .raised)
    (hop : ∀ c handle ask, Open c → c.asks.get handle = some ask → Acts R c handle ask (op c handle ask)) :
    ∀ (handles : List String) (c : Client F), handles.Nodup → Open c → (each op handles c).2 ≠ .unsigned →
      (∀ h, h ∉ handles → (each op handles c).1.asks.get h = c.asks.get h) ∧
      ∀ h ∈ handles, ∀ ask, c.asks.get h = some ask →
        ∃ ask', (each op handles c).1.asks.get h = some ask' ∧ R .returned ask ask'
  | [], c, _, _, _ => ⟨fun _ _ => rfl, fun h hmem => by cases hmem⟩
  | handle :: handles, c, hnodup, hopen, hsigned => by
      obtain ⟨hnew, hnodup⟩ := List.nodup_cons.mp hnodup
      rw [each] at hsigned ⊢
      cases hget : c.asks.get handle with
      | none =>
          rw [hget] at hsigned
          obtain ⟨hothers, heach⟩ := each_acts hfate hop handles c hnodup hopen hsigned
          refine ⟨fun h hne => hothers h fun hmem => hne (List.mem_cons_of_mem _ hmem), fun h hmem ask hask => ?_⟩
          rcases List.mem_cons.mp hmem with rfl | hmem
          · rw [hget] at hask
            cases hask
          · exact heach h hmem ask hask
      | some ask =>
          rw [hget] at hsigned
          have hacts := hop c handle ask hopen hget
          have hraised := hfate c handle ask
          dsimp only at hsigned ⊢
          generalize op c handle ask = s at hsigned hacts hraised ⊢
          obtain ⟨c₁, fate⟩ := s
          cases fate with
          | raised => exact absurd rfl hraised
          | unsigned => exact absurd rfl hsigned
          | returned =>
              obtain ⟨hothers, heach⟩ := each_acts hfate hop handles c₁ hnodup hacts.open_ hsigned
              refine ⟨fun h hne => ?_, fun h hmem ask₁ hask => ?_⟩
              · obtain ⟨hneq, hnmem⟩ := not_or.mp fun hor => hne (List.mem_cons.mpr hor)
                exact (hothers h hnmem).trans (hacts.others h hneq)
              · rcases List.mem_cons.mp hmem with rfl | hmem
                · obtain rfl := Option.some.inj (hget.symm.trans hask)
                  obtain ⟨ask', hask', hR⟩ := hacts.self
                  exact ⟨ask', (hothers h hnew).trans hask', hR⟩
                · refine heach h hmem ask₁ ?_
                  rw [hacts.others h (fun heq => hnew (heq ▸ hmem))]
                  exact hask

section

variable (h32 : ∀ data, (U.C.sha256 data).length = 32)

include h32

omit h32 [PyNumber F] in
theorem foldl_dir_query (nodes : List String) : ∀ c : Client F,
    (nodes.foldl (fun c did => c.send did .dir_query) c).asks = c.asks ∧
    (nodes.foldl (fun c did => c.send did .dir_query) c).by_rhash = c.by_rhash := by
  induction nodes with
  | nil => exact fun c => ⟨rfl, rfl⟩
  | cons did nodes ih => exact fun c => ih (c.send did .dir_query)

omit h32 in
/-- A tick is its asks', the greetings apart. -/
theorem on_tick_eq (c : Client F) (now : F) : ∃ c₁ : Client F, c₁.asks = c.asks ∧ c₁.by_rhash = c.by_rhash ∧
    c.on_tick U now = each (fun c handle ask =>
      if ask.outcome.isNone ∧ PyFloat.le ask.deadline now then c.submit U handle (given_up ask) now
      else (c, .returned)) c.asks.keys c₁ := by
  rw [on_tick]
  split_ifs
  · obtain ⟨hasks, hindex⟩ :=
      foldl_dir_query (U.entries ++ U.standby) { c with next_hello := PyFloat.add now U.hello_every }
    exact ⟨_, hasks, hindex, by rw [hasks]⟩
  · exact ⟨c, rfl, rfl, rfl⟩

theorem on_tick_ran {c : Client F} (h : Fit U c) (now : F) : Ran U L c (c.on_tick U now) := by
  obtain ⟨c₁, hasks, hindex, heq⟩ := on_tick_eq (U := U) c now
  rw [heq]
  refine .after (each_ran (fun c handle ask hfit hget => ?_) _ c₁ (h.same hasks hindex)) hasks
  exact ((tick_acts h32 hfit.index hget now).mono rfl fun _ _ htimed => htimed.1).ran hget

theorem on_tick_timed {c : Client F} (h : Fit U c) (now : F) (hsigned : (c.on_tick U now).2 ≠ .unsigned)
    {handle : String} {ask : Ask F} (hget : c.asks.get handle = some ask) :
    ∃ ask', (c.on_tick U now).1.asks.get handle = some ask' ∧ Timed U L now .returned ask ask' := by
  obtain ⟨c₁, hasks, hindex, heq⟩ := on_tick_eq (U := U) c now
  rw [heq] at hsigned ⊢
  refine (each_acts (fun c handle ask => ?_) (fun c handle ask hopen hget => tick_acts h32 hopen hget now) _ c₁
    c.asks.nodup_keys (h.same hasks hindex).index hsigned).2 handle ?_ ask (by rw [hasks]; exact hget)
  · split_ifs
    · exact submit_fate c handle _ now
    · exact returned_ne_raised
  · exact OrderedDict.mem_keys.mpr ⟨ask, hget⟩

end

end

end Client

end Secdogie.Inference
