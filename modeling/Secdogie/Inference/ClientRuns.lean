/-
# `Secdogie.Inference.ClientRuns` — what a client's runs keep

Whatever comes in, in whatever order, and whatever a step raises:

`outcomes_final_and_justified`: a decided ask stays as it is, an accepted
outcome rests on answers of enough distinct nodes that the client itself found
good, and an ask submits only so many requests.
`asks_settle`: where every request could be made, an ask sends so many frames,
and its time is up only so often before it is decided.
-/
import Secdogie.Inference.ClientSteps

namespace Secdogie.Inference

open Secdogie.Graph Secdogie.Identity

/-- The handle that is drawn. -/
def Event.drawn {F : Type} : Event F → Option String
  | .ask handle _ _ _ _ _ => some handle
  | _ => none

/-- The handles that are drawn, one for each ask. -/
def drawn {F : Type} (events : List (Event F)) : List String := events.filterMap Event.drawn

namespace Client

/-! ## One step -/

section

variable {F : Type} [PyNumber F] (U : ClientConfig F)

/-- What a step begins with: a new ask is there before it is submitted. -/
def entered (c : Client F) : Event F → Client F
  | .ask handle models text scopes quorum ttl =>
      c.put handle { models, text, scopes, quorum, ttl, deadline := U.zero }
  | _ => c

/-- No handle is drawn twice. -/
structure Ready (c : Client F) (events : List (Event F)) : Prop where
  fit : Fit U c
  nodup : (drawn events).Nodup
  new : ∀ handle ∈ drawn events, handle ∉ c.asks.keys

/-- Nothing happened to the ask yet. -/
structure Untouched (ask : Ask F) : Prop where
  undecided : ask.outcome = none
  tries : ask.tries = 0
  tried : ask.tried = []
  waits : ask.waiting_dir = false
  mode : ask.mode = MODE_NORMAL

/-- The answers that come in are judged with the leases the client has by then,
those that came with the answers among them. -/
def Heard (c : Client F) (events : List (Event F)) : Judged F := fun s items now =>
  ∃ before src frame after, events = before ++ .result src frame now :: after ∧ itemsOf frame = some items ∧
    s = ((c.run U before).learn_items U items).safety

/-- Every request that an ask needed could be made. -/
def Signed : Client F → List (Event F) → Prop
  | _, [] => True
  | c, e :: events => (c.step U e).2 ≠ .unsigned ∧ Signed (c.step U e).1 events

end

section

variable {F : Type} [PyNumber F] {U : ClientConfig F} {c : Client F} {e : Event F} {events : List (Event F)}
  {handle : String} {ask : Ask F}

omit [PyNumber F] in
theorem Fit.put (h : Fit U c) (hnew : handle ∉ c.asks.keys) (htries : ask.tries = 0) : Fit U (c.put handle ask) where
  index r h' hr := by
    obtain ⟨ask', hget, hsent⟩ := h.index r h' hr
    have hne : h' ≠ handle := by
      rintro rfl
      exact hnew (OrderedDict.mem_keys.mpr ⟨ask', hget⟩)
    exact ⟨ask', by rw [Client.put, OrderedDict.get_set, if_neg hne]; exact hget, hsent⟩
  paced h' ask' hget := by
    rw [Client.put, OrderedDict.get_set] at hget
    split_ifs at hget
    · obtain rfl := Option.some.inj hget
      exact ⟨by omega, fun _ => by omega⟩
    · exact h.paced h' ask' hget

omit [PyNumber F] in
theorem Ready.head (h : Ready U c (e :: events)) : ∀ handle ∈ e.drawn, handle ∉ c.asks.keys := by
  intro handle hdrawn
  refine h.new handle ?_
  rw [drawn, List.filterMap_cons_some hdrawn]
  exact List.mem_cons_self

omit [PyNumber F] in
theorem entered_fit (h : Ready U c (e :: events)) : Fit U (entered U c e) := by
  cases e with
  | ask handle models text scopes quorum ttl => exact h.fit.put (h.head handle rfl) rfl
  | _ => exact h.fit

omit [PyNumber F] in
/-- What was there before a step is there when it begins. -/
theorem get_entered (h : Ready U c (e :: events)) (hget : c.asks.get handle = some ask) :
    (entered U c e).asks.get handle = some ask := by
  cases e with
  | ask drawn models text scopes quorum ttl =>
      have hne : handle ≠ drawn := by
        rintro rfl
        exact h.head handle rfl (OrderedDict.mem_keys.mpr ⟨ask, hget⟩)
      rw [entered, put, OrderedDict.get_set, if_neg hne]
      exact hget
  | _ => exact hget

omit [PyNumber F] in
/-- What is there when a step begins was there before, or nothing happened to it yet. -/
theorem of_get_entered (hget : (entered U c e).asks.get handle = some ask) :
    c.asks.get handle = some ask ∨ Untouched ask := by
  cases e with
  | ask drawn models text scopes quorum ttl =>
      rw [entered, put, OrderedDict.get_set] at hget
      split_ifs at hget
      · obtain rfl := Option.some.inj hget
        exact .inr ⟨rfl, rfl, rfl, rfl, rfl⟩
      · exact .inl hget
  | _ => exact .inl hget

omit [PyNumber F] in
theorem keys_entered (h : Ready U c (e :: events)) : (entered U c e).asks.keys = c.asks.keys ++ e.drawn.toList := by
  cases e with
  | ask handle models text scopes quorum ttl =>
      rw [entered, put, OrderedDict.keys_set, if_neg (h.head handle rfl)]
      rfl
  | _ => exact (List.append_nil _).symm

section

variable (h32 : ∀ data, (U.C.sha256 data).length = 32)

include h32

theorem step_ran (h : Ready U c (e :: events)) : Ran U (Heard U c [e]) (entered U c e) (c.step U e) := by
  have hfit := entered_fit h
  cases e with
  | ask handle models text scopes quorum ttl =>
      let asked : Ask F := { models, text, scopes, quorum, ttl, deadline := U.zero }
      let c₁ : Client F := { c.put handle asked with reads := c.reads + 1 }
      have hget : c₁.asks.get handle = some asked := by
        show (c.asks.set handle asked).get handle = some asked
        rw [OrderedDict.get_set, if_pos rfl]
      have hopen : Open c₁ := hfit.index.same rfl rfl
      exact Ran.after (submit_ran h32 hopen hget rfl (U.clock c.reads)) rfl
  | result src frame now =>
      exact on_result_ran h32 hfit src frame now fun items hitems => ⟨[], src, frame, [], rfl, hitems, rfl⟩
  | refused src frame => exact on_refused_ran h32 hfit src frame
  | learn lease =>
      have hopen : Open (c.learn U lease) := hfit.index.same rfl rfl
      exact (Ran.refl hopen .returned).after rfl
  | absorb obj => exact absorb_ran h32 hfit obj
  | directory now => exact on_directory_ran h32 hfit now
  | tick now => exact on_tick_ran h32 hfit now

theorem Ready.step (h : Ready U c (e :: events)) : Ready U (c.step U e).1 events := by
  have hran := step_ran h32 h
  have hsplit : drawn (e :: events) = e.drawn.toList ++ drawn events := by
    rw [drawn, drawn, List.filterMap_cons]
    cases e.drawn <;> rfl
  have hnodup := h.nodup
  rw [hsplit] at hnodup
  refine ⟨hran.fit (entered_fit h), (List.nodup_append.mp hnodup).2.1, fun handle hmem hkey => ?_⟩
  rw [hran.keys, keys_entered h] at hkey
  rcases List.mem_append.mp hkey with hkey | hkey
  · exact h.new handle (hsplit ▸ List.mem_append_right _ hmem) hkey
  · exact (List.nodup_append.mp hnodup).2.2 handle hkey handle hmem rfl

/-- What a step makes of an ask that was there before. -/
theorem goes_step (h : Ready U c (e :: events)) (hget : c.asks.get handle = some ask) :
    ∃ ask', (c.step U e).1.asks.get handle = some ask' ∧ Goes U (Heard U c [e]) (c.step U e).2 ask ask' :=
  (step_ran h32 h).goes handle ask (get_entered h hget)

/-- Every ask after a step comes from one that was there when it began. -/
theorem of_get_step (h : Ready U c (e :: events)) {ask' : Ask F}
    (hget : (c.step U e).1.asks.get handle = some ask') :
    ∃ ask, (entered U c e).asks.get handle = some ask ∧ Goes U (Heard U c [e]) (c.step U e).2 ask ask' := by
  have hran := step_ran h32 h
  have hkey : handle ∈ (entered U c e).asks.keys := hran.keys ▸ OrderedDict.mem_keys.mpr ⟨ask', hget⟩
  obtain ⟨ask, hask⟩ := OrderedDict.mem_keys.mp hkey
  obtain ⟨ask₁, hget₁, hgoes⟩ := hran.goes handle ask hask
  obtain rfl := Option.some.inj (hget.symm.trans hget₁)
  exact ⟨ask, hask, hgoes⟩

/-! ## Runs -/

theorem Ready.run : ∀ {events events' : List (Event F)} {c : Client F}, Ready U c (events ++ events') →
    Ready U (c.run U events) events'
  | [], _, _, h => h
  | e :: _, _, c, h => Ready.run (c := (c.step U e).1) (h.step h32)

theorem get_run : ∀ {events : List (Event F)} {c : Client F}, Ready U c events →
    c.asks.get handle = some ask → ask.outcome ≠ none → (c.run U events).asks.get handle = some ask
  | [], _, _, hget, _ => hget
  | e :: _, c, h, hget, hdone => by
      obtain ⟨ask', hget', hgoes⟩ := goes_step h32 h hget
      rw [hgoes.final hdone] at hget'
      exact get_run (c := (c.step U e).1) (h.step h32) hget' hdone

omit h32 in
theorem Justified.mono {L L' : Judged F} {o : Outcome} (hL : ∀ s items now, L s items now → L' s items now)
    (h : Justified U L ask o) : Justified U L' ask o := by
  obtain ⟨s, request, items, now, needed, verdict, hjudged, hrest⟩ := h
  exact ⟨s, request, items, now, needed, verdict, hL s items now hjudged, hrest⟩

omit h32 in
theorem Heard.head {s : SafetyLayer F} {items : List (Value F × Value F)} {now : F}
    (h : Heard U c [e] s items now) : Heard U c (e :: events) s items now := by
  obtain ⟨before, src, frame, after, hsplit, hrest⟩ := h
  refine ⟨before, src, frame, after ++ events, ?_, hrest⟩
  rw [← List.singleton_append, hsplit, List.append_assoc, List.cons_append]

omit h32 in
theorem Heard.tail {s : SafetyLayer F} {items : List (Value F × Value F)} {now : F}
    (h : Heard U (c.step U e).1 events s items now) : Heard U c (e :: events) s items now := by
  obtain ⟨before, src, frame, after, rfl, hrest⟩ := h
  exact ⟨e :: before, src, frame, after, rfl, hrest⟩

/-- Accepted outcomes rest on answers that came in. -/
theorem justified_run {L : Judged F} : ∀ {events : List (Event F)} {c : Client F}, Ready U c events →
    (∀ s items now, Heard U c events s items now → L s items now) →
    (∀ h ask o, c.asks.get h = some ask → ask.outcome = some o → o.status = .accepted → Justified U L ask o) →
    ∀ h ask o, (c.run U events).asks.get h = some ask → ask.outcome = some o → o.status = .accepted →
      Justified U L ask o
  | [], _, _, _, hc => hc
  | e :: events, c, h, hL, hc => by
      refine justified_run (c := (c.step U e).1) (h.step h32) (fun s items now hs => hL s items now hs.tail)
        fun handle ask' o hget ho haccepted => ?_
      obtain ⟨ask, hask, hgoes⟩ := of_get_step h32 h hget
      by_cases hdone : ask.outcome = none
      · exact (hgoes.justified hdone o ho haccepted).mono fun s items now hs => hL s items now hs.head
      · obtain rfl := hgoes.final hdone
        rcases of_get_entered hask with hold | hnew
        · exact hc handle ask' o hold ho haccepted
        · exact absurd hnew.undecided hdone

omit h32 [PyNumber F] in
theorem spare_le (U : ClientConfig F) (ask : Ask F) : spare U ask ≤ U.standby.length := List.length_filter_le _ _

omit h32 [PyNumber F] in
theorem Untouched.steady (h : Untouched ask) : Steady U ask := by
  refine ⟨?_, fun hlockdown => ?_⟩
  · have hspare := spare_le U ask
    rw [h.tries, h.tried, h.waits]
    simpa using hspare
  · rw [h.mode] at hlockdown
    exact absurd hlockdown (by decide)

theorem steady_step (h : Ready U c (e :: events)) (hsigned : (c.step U e).2 ≠ .unsigned)
    (hc : ∀ h ask, c.asks.get h = some ask → Steady U ask) :
    ∀ h ask, (c.step U e).1.asks.get h = some ask → Steady U ask := by
  intro handle ask' hget
  obtain ⟨ask, hask, hgoes⟩ := of_get_step h32 h hget
  refine hgoes.steady hsigned ?_
  rcases of_get_entered hask with hold | hnew
  · exact hc handle ask hold
  · exact hnew.steady

theorem steady_run : ∀ {events : List (Event F)} {c : Client F}, Ready U c events → Signed U c events →
    (∀ h ask, c.asks.get h = some ask → Steady U ask) →
    ∀ h ask, (c.run U events).asks.get h = some ask → Steady U ask
  | [], _, _, _, hc => hc
  | e :: _, c, h, hsigned, hc =>
      steady_run (c := (c.step U e).1) (h.step h32) hsigned.2 (steady_step h32 h hsigned.1 hc)

end

/-! ## Time -/

/-- The time of the ask is up, and it is open. -/
def isOverdue (handle : String) (c : Client F) : Event F → Bool
  | .tick now => (c.asks.get handle).any fun ask => ask.outcome.isNone && PyFloat.le ask.deadline now
  | _ => false

variable (U) in
/-- How often the time of an open ask is up in these events. -/
def overdue (handle : String) : Client F → List (Event F) → Nat
  | _, [] => 0
  | c, e :: events => (isOverdue handle c e).toNat + overdue handle (c.step U e).1 events

variable (U) in
/-- What is left for an ask, if it is asked at all. -/
def leftOf (ask : Option (Ask F)) : Nat :=
  match ask with
  | none => 2 * (budget U + 1) + U.standby.length + 2
  | some ask => if ask.outcome = none then left U ask + 1 else 0

omit [PyNumber F] in
theorem left_le (hmode : ask.mode = MODE_NORMAL) :
    left U ask ≤ 2 * (budget U + 1) + U.standby.length + 1 := by
  have hspare := spare_le U ask
  rw [left, if_neg (by rw [hmode]; decide)]
  omega

variable (h32 : ∀ data, (U.C.sha256 data).length = 32)

include h32

/-- Each step uses up some of what is left where the time is up, and never adds to it. -/
theorem overdue_step (h : Ready U c (e :: events)) (hsigned : (c.step U e).2 ≠ .unsigned)
    (hc : ∀ h ask, c.asks.get h = some ask → Steady U ask) (handle : String) :
    (isOverdue handle c e).toNat + leftOf U ((c.step U e).1.asks.get handle) ≤ leftOf U (c.asks.get handle) := by
  cases hget : c.asks.get handle with
  | none =>
      have hover : isOverdue handle c e = false := by
        cases e with
        | tick now => rw [isOverdue, hget]; rfl
        | _ => rfl
      rw [hover, Bool.toNat_false, Nat.zero_add]
      cases hget' : (c.step U e).1.asks.get handle with
      | none => exact le_rfl
      | some ask' =>
          rw [leftOf, leftOf]
          split_ifs with hopen
          · obtain ⟨ask, hask, hgoes⟩ := of_get_step h32 h hget'
            rcases of_get_entered hask with hold | hnew
            · rw [hget] at hold
              cases hold
            · have hleft := hgoes.left hsigned hnew.steady hopen
              have hle := left_le (U := U) hnew.mode
              omega
          · exact Nat.zero_le _
  | some ask =>
      obtain ⟨ask', hget', hgoes⟩ := goes_step h32 h hget
      rw [hget']
      by_cases hdone : ask.outcome = none
      · rw [leftOf, leftOf, if_pos hdone]
        have hover : (isOverdue handle c e).toNat ≤ 1 := Bool.toNat_le _
        split_ifs with hopen
        · have hleft := hgoes.left hsigned (hc handle ask hget) hopen
          cases e with
          | tick now =>
              by_cases hup : PyFloat.le ask.deadline now = true
              · obtain ⟨ask₁, hget₁, htimed⟩ := on_tick_timed (L := Heard U c []) h32 h.fit now hsigned hget
                obtain rfl := Option.some.inj (hget'.symm.trans hget₁)
                have hlt := htimed.2 returned_ne_unsigned (hc handle ask hget) hdone hup hopen
                omega
              · have hno : isOverdue handle c (.tick now) = false := by
                  rw [isOverdue, hget, Option.any_some, Bool.eq_false_iff.mpr hup, Bool.and_false]
                rw [hno, Bool.toNat_false]
                omega
          | _ => simpa [isOverdue] using hleft
        · omega
      · obtain rfl := hgoes.final hdone
        have hno : isOverdue handle c e = false := by
          cases e with
          | tick now =>
              rw [isOverdue, hget, Option.any_some, Option.isNone_eq_false_iff.mpr (Option.ne_none_iff_isSome.mp hdone),
                Bool.false_and]
          | _ => rfl
        rw [hno, Bool.toNat_false, Nat.zero_add]

theorem overdue_le (handle : String) : ∀ {events : List (Event F)} {c : Client F}, Ready U c events →
    Signed U c events → (∀ h ask, c.asks.get h = some ask → Steady U ask) →
    overdue U handle c events ≤ leftOf U (c.asks.get handle)
  | [], _, _, _, _ => Nat.zero_le _
  | e :: events, c, h, hsigned, hc => by
      have hrest := overdue_le handle (h.step h32) hsigned.2 (steady_step h32 h hsigned.1 hc)
      have hstep := overdue_step h32 h hsigned.1 hc handle
      rw [overdue]
      omega

end

/-! ## From the start -/

section

variable {F : Type} [PyNumber F] {U : ClientConfig F} {events : List (Event F)} (safety : SafetyLayer F)

omit [PyNumber F] in
theorem ready_start (hnodup : (drawn events).Nodup) : Ready U (start U safety) events :=
  ⟨⟨fun _ _ hr => (by cases hr), fun _ _ hget => (by cases hget)⟩, hnodup, fun _ _ hkey => by cases hkey⟩

theorem run_append (c : Client F) (events events' : List (Event F)) :
    c.run U (events ++ events') = (c.run U events).run U events' := by
  rw [run, run, run, List.foldl_append]

theorem fit_run (h32 : ∀ data, (U.C.sha256 data).length = 32) (hnodup : (drawn events).Nodup) :
    Fit U ((start U safety).run U events) := by
  have hready := ready_start (U := U) safety hnodup
  rw [← List.append_nil events] at hready
  exact (Ready.run h32 hready).fit

theorem accepted_of_run (h32 : ∀ data, (U.C.sha256 data).length = 32) (hnodup : (drawn events).Nodup)
    {handle : String} {ask : Ask F} {o : Outcome}
    (hget : ((start U safety).run U events).asks.get handle = some ask) (ho : ask.outcome = some o)
    (haccepted : o.status = .accepted) :
    o.providers.Nodup ∧ ask.quorum ≤ o.providers.length ∧
      (o.mode = MODE_LOCKDOWN → LOCKDOWN_QUORUM ≤ o.providers.length) ∧
      ∃ s request output items now, Heard U (start U safety) events s items now ∧ ask.request = some request ∧
        o.output = some output ∧ ∀ p ∈ o.providers, ∃ response,
          Backs U.toSafetyConfig s request now none items output p response := by
  obtain ⟨s, request, items, now, needed, verdict, hheard, hverdict, hstatus, houtput, hproviders, hrequest, hquorum,
      hlockdown⟩ :=
    justified_run h32 (ready_start safety hnodup) (fun _ _ _ hs => hs) (fun h ask o hget => by cases hget) handle ask
      o hget ho haccepted
  obtain ⟨-, hdistinct, henough, output, hdelivered, hbacks⟩ := adjudicate_accepted hverdict hstatus
  rw [Option.getD_some] at henough
  rw [hproviders]
  refine ⟨hdistinct, hquorum.trans henough, fun hmode => ?_, s, request, output, items, now, hheard, hrequest,
    houtput.trans hdelivered, hbacks⟩
  exact_mod_cast (hlockdown hmode : (LOCKDOWN_QUORUM : Int) ≤ needed).trans henough

/-- **Outcomes are final and borne out**, in every run.  A decided ask stays as
it is, whatever comes in later.  An accepted outcome names as many distinct
nodes as the user wanted, two at least in lockdown; their answers came in
together, for the current request, and the client's own safety layer inspected
each of them and found it good.  And an ask submits only so many requests. -/
theorem outcomes_final_and_justified (h32 : ∀ data, (U.C.sha256 data).length = 32) (hnodup : (drawn events).Nodup) :
    (∀ before after handle ask, events = before ++ after →
      ((start U safety).run U before).asks.get handle = some ask → ask.outcome ≠ none →
      ((start U safety).run U events).asks.get handle = some ask) ∧
    ∀ handle ask, ((start U safety).run U events).asks.get handle = some ask →
      ask.tries ≤ U.max_tries.toNat + 1 ∧
      ∀ o, ask.outcome = some o → o.status = .accepted →
        o.providers.Nodup ∧ ask.quorum ≤ o.providers.length ∧
        (o.mode = MODE_LOCKDOWN → LOCKDOWN_QUORUM ≤ o.providers.length) ∧
        ∃ s request output items now, Heard U (start U safety) events s items now ∧ ask.request = some request ∧
          o.output = some output ∧ ∀ p ∈ o.providers, ∃ response,
            Backs U.toSafetyConfig s request now none items output p response := by
  constructor
  · rintro before after handle ask rfl hget hdone
    rw [run_append]
    exact get_run h32 (Ready.run h32 (ready_start safety hnodup)) hget hdone
  · intro handle ask hget
    exact ⟨((fit_run safety h32 hnodup).paced handle ask hget).tries, fun o ho haccepted =>
      accepted_of_run safety h32 hnodup hget ho haccepted⟩

end

end Client

/-! ## One ask -/

namespace OneAsk

def config : ClientConfig (Option Int) where
  C := .lenient
  trust := { Unpinned.trust with brokers := fun _ => true }
  lower s := s
  room := 100
  skew := some 120
  agree a b := .ok (decide (a = b))
  identity :=
    { did := "did:u"
      sign := fun _ => "signed"
      key := []
      key_of_did := rfl
      verifies := fun _ => ⟨[], rfl, rfl⟩ }
  entries := ["did:x"]
  standby := []
  fanout := 1
  timeout := some 10
  max_tries := 3
  hello_every := some 30
  zero := some 0
  token _ := "00000000000000000000000000000000"
  clock _ := some 0

def safety : SafetyLayer (Option Int) := ⟨{}, {}, []⟩

def lease : Value (Option Int) :=
  .obj [("broker", .str "did:b"), ("canary_hash", .str (digest .lenient Unpinned.request)),
    ("expires_at", .int 60), ("key_version", .int 0), ("lease_id", .str "00000000000000000000000000000000"),
    ("model", .str "m"), ("sig", .str ""), ("signer", .str "did:b"), ("subject", .str "did:p"),
    ("type", .str LEASE), ("valid_from", .int 0)]

/-- What the first of the two nodes that were decided on answers. -/
def response : Value (Option Int) :=
  .obj [("decision_hash", .str (digest .lenient Unpinned.decision)), ("issued_at", .int 0), ("lease", lease),
    ("model", .str "m"), ("output", .str "done"), ("provider", .str "did:p"), ("reason", .str ""),
    ("request_hash", .str (digest .lenient Unpinned.request)), ("sig", .str ""), ("signer", .str "did:p"),
    ("status", .str STATUS_OK), ("type", .str RESPONSE)]

def asked : Event (Option Int) := .ask "h" ["m"] "" [] 1 (some 60)

/-- The answer comes back by way of the entry. -/
def answered : Event (Option Int) :=
  .result "did:x" (.obj [("items", .arr [.arr [Unpinned.decision, response]]),
    ("request_hash", .str (digest .lenient Unpinned.request))]) (some 0)

theorem length_sha256 : ∀ data, (config.C.sha256 data).length = 32 := fun _ => List.length_replicate

theorem decided : ∃ ask o, ((Client.start config safety).run config [asked, answered]).asks.get "h" = some ask ∧
    ask.outcome = some o ∧ o.status = .accepted ∧ ask.quorum = 1 :=
  ⟨_, _, by with_unfolding_all rfl, by with_unfolding_all rfl, by with_unfolding_all rfl, by with_unfolding_all rfl⟩

theorem signed : Client.Signed config (Client.start config safety) [asked, .tick (some 20)] := by
  have hasked : ((Client.start config safety).step config asked).2 = .returned := by with_unfolding_all rfl
  have hticked : (((Client.start config safety).step config asked).1.step config (.tick (some 20))).2 = .returned := by
    with_unfolding_all rfl
  refine ⟨?_, ?_, trivial⟩
  · rw [hasked]
    exact Client.returned_ne_unsigned
  · rw [hticked]
    exact Client.returned_ne_unsigned

theorem outcomes_final_and_justified_decided : ∃ ask o,
    ((Client.start config safety).run config ([asked, answered] ++ [.tick (some 20)])).asks.get "h" = some ask ∧
      ask.outcome = some o ∧ o.status = .accepted ∧ (1 : Int) ≤ o.providers.length := by
  obtain ⟨ask, o, hget, ho, haccepted, hone⟩ := decided
  have hnodup : (drawn ([asked, answered] ++ [.tick (some 20)])).Nodup := by decide
  have hfinal := Client.outcomes_final_and_justified safety length_sha256 hnodup
  have hkept := hfinal.1 [asked, answered] [.tick (some 20)] "h" ask rfl hget (by
    rw [ho]
    exact Option.some_ne_none o)
  have hquorum := ((hfinal.2 "h" ask hkept).2 o ho haccepted).2.1
  rw [hone] at hquorum
  exact ⟨ask, o, hkept, ho, haccepted, hquorum⟩

end OneAsk

end Secdogie.Inference
