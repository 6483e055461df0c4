/-
# `Secdogie.Inference.Broker` — keys lent for a while

The broker lends the keys of the models to the nodes, one lease at a time, and
rotates the key of a model when a node that holds it is latched.  Which keys a
node holds it reads off the leases it keeps, and it keeps a lease until that
expires; a node was given the key for good.  `never_lent_again` says when
rotation misses none.
-/
import Secdogie.Identity.Num
import Secdogie.Inference.Mutiny

namespace Secdogie.Inference

open Secdogie.Graph Secdogie.Identity

structure Lease (F : Type) where
  subject : String
  model : String
  key_version : Nat
  expires_at : F

/-- What was lent: to whom, of which model, and which version of its key. -/
structure Lent where
  did : String
  model : String
  version : Nat

structure BrokerConfig (F : Type) where
  C : Crypto
  trust : TrustRoots
  K : Checks F
  /-- who is to have which models, in order -/
  assignments : List (String × List String)
  lease_ttl : F
  lease_renew_at : F
  /-- the id of the n-th lease, and the clock when it is made -/
  ids : Nat → String
  clock : Nat → F

structure Broker (F : Type) where
  ledger : MutinyLedger F := {}
  /-- `MemoryKeySource`: version and secret of each model -/
  keys : StrMap (Nat × String)
  /-- lease id to lease -/
  issued : List (String × Lease F) := []
  /-- model to the exposed version that is not to be lent again -/
  dark : StrMap Nat := ∅
  /-- newest first -/
  lent : List Lent := []

/-- The hook to the provider of the keys, if there is one; what it mints, or
`none` when it raises. -/
abbrev Mint := Option (String → Option String)

/-- Whether making and sealing a lease goes through; it raises otherwise. -/
abbrev Sealing := String → String → Bool

section

variable {F : Type}

/-- `target.partition(":")`, without the colon. -/
def partition (target : String) : String × String :=
  (String.ofList (target.toList.takeWhile (· ≠ ':')),
    String.ofList ((target.toList.dropWhile (· ≠ ':')).drop 1))

/-- What an incident's targets of a kind name. -/
def refsOf (kind : String) (inc : Incident F) : List String :=
  inc.targets.filterMap (fun t => if (partition t).1 = kind then some (partition t).2 else none)

/-- `sorted(set(l))` -/
def sortedSet (l : List String) : List String := l.dedup.mergeSort (fun a b => decide (a ≤ b))

variable [PyFloat F] (U : BrokerConfig F)

/-! ## Lending -/

/-- The version of the model's key to lend to the node now, if any. -/
def due (s : Broker F) (now : F) (did model : String) : Option Nat :=
  if excludes_node s.ledger did then none
  else
    match s.keys[model]? with
    | none => none
    | some (version, _) =>
        if s.ledger.is_latched (model_target model) then none
        else if (s.dark[model]?).any (version ≤ ·) then none
        else if s.issued.any (fun e => decide (e.2.subject = did ∧ e.2.model = model ∧
            e.2.key_version = version) && PyFloat.lt (PyFloat.mul U.lease_ttl U.lease_renew_at)
              (PyFloat.sub e.2.expires_at now)) then none
        else some version

/-- `_grant` -/
def grant (s : Broker F) (did model : String) (version : Nat) : Broker F :=
  let id := U.ids s.lent.length
  let lease := ⟨did, model, version, PyFloat.add (U.clock s.lent.length) U.lease_ttl⟩
  { s with
    issued := s.issued.filter (fun e => decide (e.1 ≠ id)) ++ [(id, lease)]
    lent := ⟨did, model, version⟩ :: s.lent }

/-- Grants what is due, up to a lease that cannot be made. -/
def issueAll (now : F) (ok : Sealing) (s : Broker F) : List (String × String) → Broker F
  | [] => s
  | (did, model) :: rest =>
      match due U s now did model with
      | none => issueAll now ok s rest
      | some version =>
          if ok did model then issueAll now ok (grant U s did model version) rest else s

def issue_due (s : Broker F) (now : F) (ok : Sealing) : Broker F :=
  issueAll U now ok s (U.assignments.flatMap (fun a => a.2.map (fun model => (a.1, model))))

def on_tick (s : Broker F) (now : F) (ok : Sealing) : Broker F :=
  issue_due U { s with issued := s.issued.filter (fun e => !PyFloat.le e.2.expires_at now) } now ok

/-! ## Incidents -/

/-- Rotates the key of one model, or marks it dark; `none` when this raises.
`left` are the leases that are not to be revoked. -/
def rotateOne (mint : Mint) (s : Broker F) (left : List (String × Lease F)) (model : String) :
    Option (Broker F × List (String × Lease F)) :=
  match s.keys[model]?, mint with
  | none, _ => some (s, left.filter (fun e => decide (e.2.model ≠ model)))
  | some (version, _), none =>
      some ({ s with dark := s.dark.insert model version },
        left.filter (fun e => decide (e.2.model ≠ model)))
  | some (version, _), some f =>
      match f model with
      | none => none
      | some secret =>
          some ({ s with keys := s.keys.insert model (version + 1, secret) },
            left.filter (fun e => !decide (e.2.model = model ∧ e.2.key_version < version + 1)))

/-- Models one after the other, up to one that raises; the leases that are
left, if none does. -/
def rotateAll (mint : Mint) (s : Broker F) (left : List (String × Lease F)) :
    List String → Broker F × Option (List (String × Lease F))
  | [] => (s, some left)
  | model :: models =>
      match rotateOne mint s left model with
      | none => (s, none)
      | some (s', left') => rotateAll mint s' left' models

/-- The models a latched node holds a lease of, and a model that reported
itself. -/
def toRotate (s : Broker F) (inc : Incident F) : List String :=
  sortedSet ((s.issued.filter (fun e => decide (e.2.subject ∈ refsOf "node" inc))).map
      (fun e => e.2.model) ++
    if inc.kind = .model_self_reported then refsOf "model" inc else [])

def on_incident (s : Broker F) (inc : Incident F) (now : F) (ok : Sealing) (mint : Mint) : Broker F :=
  let left := s.issued.filter (fun e =>
    !decide (e.2.subject ∈ refsOf "node" inc ∨ e.2.model ∈ refsOf "model" inc))
  match rotateAll mint s left (toRotate s inc) with
  | (s', none) => s'
  | (s', some left) => issue_due U { s' with issued := left } now ok

/-- The incident in an object, if it verifies and is new. -/
def newIncident (s : Broker F) (obj : Value F) : Option (Incident F) :=
  (verify_incident U.C U.trust U.K obj).filter
    (fun inc => !s.ledger.incidents.contains inc.incident_id)

/-! ## Runs -/

inductive BrokerEvent (F : Type) where
  | tick (now : F) (ok : Sealing)
  | incident (obj : Value F) (now : F) (ok : Sealing) (mint : Mint)
  | reset (obj : Value F) (now : F) (ok : Sealing)
  /-- the operator installs a key -/
  | set (model secret : String)

def Broker.step (s : Broker F) : BrokerEvent F → Broker F
  | .tick now ok => on_tick U s now ok
  | .incident obj now ok mint =>
      match newIncident U s obj with
      | none => s
      | some inc =>
          on_incident U { s with ledger := s.ledger.add U.C U.trust U.K obj } inc now ok mint
  | .reset obj now ok =>
      let ledger := s.ledger.reset U.C U.trust obj
      -- something was unlatched
      if s.ledger.latches.keys.any (fun t => !ledger.is_latched t) then
        issue_due U { s with ledger } now ok
      else { s with ledger }
  | .set model secret =>
      let version := ((s.keys[model]?).map Prod.fst).getD 0 + 1
      { s with keys := s.keys.insert model (version, secret) }

def Broker.run (s : Broker F) (es : List (BrokerEvent F)) : Broker F := es.foldl (Broker.step U) s

/-- The version of the key is not to be lent again. -/
def Blocked (s : Broker F) (model : String) (version : Nat) : Prop :=
  (∃ current, s.keys[model]? = some current ∧ version < current.1) ∨
    ∃ exposed, s.dark[model]? = some exposed ∧ version ≤ exposed

/-- When an incident latches a node, every version it was given of a key is one
that is not to be lent again, or else the broker still keeps a lease of the
node for the model, and no key that is to be rotated makes the hook raise. -/
def KeepsLeases (s : Broker F) : BrokerEvent F → Prop
  | .incident obj _ _ mint => ∀ inc did, newIncident U s obj = some inc →
      s.ledger.is_latched (node_target did) = false →
      (s.ledger.add U.C U.trust U.K obj).is_latched (node_target did) = true →
      ∀ g ∈ s.lent, g.did = did → Blocked s g.model g.version ∨
        (∃ e ∈ s.issued, e.2.subject = did ∧ e.2.model = g.model) ∧
          ∀ f, mint = some f → ∀ model ∈ toRotate s inc, f model ≠ none
  | _ => True

/-- In a run. -/
def AllKeep (s : Broker F) : List (BrokerEvent F) → Prop
  | [] => True
  | ev :: es => KeepsLeases U s ev ∧ AllKeep (Broker.step U s ev) es

end

/-! ## What a step keeps -/

section

variable {F : Type} {s s' : Broker F}

/-- What is recorded of keys is about keys there are, up to their versions. -/
structure Known (s : Broker F) : Prop where
  lent : ∀ g ∈ s.lent, ∃ current, s.keys[g.model]? = some current ∧ g.version ≤ current.1
  dark : ∀ (model : String) exposed, s.dark[model]? = some exposed →
    ∃ current, s.keys[model]? = some current ∧ exposed ≤ current.1

/-- What is blocked stays so, and nothing blocked is lent, nor anything to a
node that is latched then. -/
structure Lends (s s' : Broker F) : Prop where
  blocked : ∀ model version, Blocked s model version → Blocked s' model version
  lent : ∃ new, s'.lent = new ++ s.lent ∧ ∀ g ∈ new, ¬ Blocked s g.model g.version ∧
    s'.ledger.is_latched (node_target g.did) = false

theorem Lends.of_same (hkeys : s'.keys = s.keys) (hdark : s'.dark = s.dark)
    (hlent : s'.lent = s.lent) : Lends s s' where
  blocked model version h := by
    rw [Blocked, hkeys, hdark]
    exact h
  lent := ⟨[], hlent, fun _ h => nomatch h⟩

theorem Known.of_same (h : Known s) (hkeys : s'.keys = s.keys) (hdark : s'.dark = s.dark)
    (hlent : s'.lent = s.lent) : Known s' where
  lent := by
    rw [hkeys, hlent]
    exact h.lent
  dark := by
    rw [hkeys, hdark]
    exact h.dark

theorem Lends.trans {s'' : Broker F} (h : Lends s s') (h' : Lends s' s'')
    (hledger : s''.ledger = s'.ledger) : Lends s s'' where
  blocked model version hb := h'.blocked model version (h.blocked model version hb)
  lent := by
    obtain ⟨new, hnew, hfresh⟩ := h.lent
    obtain ⟨new', hnew', hfresh'⟩ := h'.lent
    refine ⟨new' ++ new, by rw [hnew', hnew, List.append_assoc], ?_⟩
    intro g hg
    rcases List.mem_append.mp hg with hg | hg
    · refine ⟨fun hb => (hfresh' g hg).1 (h.blocked _ _ hb), (hfresh' g hg).2⟩
    · rw [hledger]
      exact hfresh g hg

/-- The key of a model with a new version, or dark up to the old. -/
theorem blocked_insert_key {model : String} {version : Nat} (secret : String)
    (h : ∀ current, s.keys[model]? = some current → current.1 ≤ version)
    (hkeys : s'.keys = s.keys.insert model (version, secret)) (hdark : s'.dark = s.dark)
    {m : String} {v : Nat} (hb : Blocked s m v) : Blocked s' m v := by
  rcases hb with ⟨current, hcurrent, hlt⟩ | hexposed
  · left
    rw [hkeys, StrMap.get_insert]
    split_ifs with heq
    · subst heq
      exact ⟨_, rfl, hlt.trans_le (h current hcurrent)⟩
    · exact ⟨current, hcurrent, hlt⟩
  · right
    rw [hdark]
    exact hexposed

theorem Known.insert_key {model secret : String} {version : Nat} (hknown : Known s)
    (h : ∀ current, s.keys[model]? = some current → current.1 ≤ version)
    (hkeys : s'.keys = s.keys.insert model (version, secret)) (hdark : s'.dark = s.dark)
    (hlent : s'.lent = s.lent) : Known s' := by
  have hget : ∀ (m : String) (v : Nat), (∃ current, s.keys[m]? = some current ∧ v ≤ current.1) →
      ∃ current, s'.keys[m]? = some current ∧ v ≤ current.1 := by
    rintro m v ⟨current, hcurrent, hle⟩
    rw [hkeys, StrMap.get_insert]
    split_ifs with heq
    · subst heq
      exact ⟨_, rfl, hle.trans (h current hcurrent)⟩
    · exact ⟨current, hcurrent, hle⟩
  refine ⟨?_, ?_⟩
  · intro g hg
    exact hget _ _ (hknown.lent g (hlent ▸ hg))
  · intro m exposed hexposed
    exact hget _ _ (hknown.dark m exposed (hdark ▸ hexposed))

variable [PyFloat F] {U : BrokerConfig F}

/-- What is due is the current version, to a node that is not latched. -/
theorem due_some {now : F} {did model : String} {version : Nat}
    (h : due U s now did model = some version) :
    s.ledger.is_latched (node_target did) = false ∧ ¬ Blocked s model version ∧
      ∃ secret, s.keys[model]? = some (version, secret) := by
  rw [due] at h
  cases hkey : s.keys[model]? with
  | none =>
      rw [hkey] at h
      split_ifs at h
  | some current =>
      obtain ⟨v, secret⟩ := current
      rw [hkey] at h
      dsimp only at h
      split_ifs at h with hexcluded hmodel hdark hfresh
      cases h
      refine ⟨?_, ?_, secret, rfl⟩
      · rw [excludes_node, Bool.not_eq_true, Bool.or_eq_false_iff] at hexcluded
        exact hexcluded.1
      · rintro (⟨current, hcurrent, hlt⟩ | ⟨exposed, hexposed, hle⟩)
        · rw [hkey] at hcurrent
          cases hcurrent
          exact absurd hlt (lt_irrefl _)
        · rw [hexposed] at hdark
          exact hdark (decide_eq_true hle)

theorem lends_issueAll (U : BrokerConfig F) (now : F) (ok : Sealing)
    (pairs : List (String × String)) (h : Known s) :
    Lends s (issueAll U now ok s pairs) ∧ Known (issueAll U now ok s pairs) ∧
      (issueAll U now ok s pairs).ledger = s.ledger := by
  induction pairs generalizing s with
  | nil => exact ⟨Lends.of_same rfl rfl rfl, h, rfl⟩
  | cons pair pairs ih =>
      obtain ⟨did, model⟩ := pair
      rw [issueAll]
      split
      · exact ih h
      · next version hdue =>
          obtain ⟨hlatched, hfresh, secret, hkey⟩ := due_some hdue
          split_ifs
          · have hgrant : Lends s (grant U s did model version) := by
              refine ⟨fun _ _ hb => hb, [⟨did, model, version⟩], rfl, ?_⟩
              intro g hg
              rw [List.mem_singleton.mp hg]
              exact ⟨hfresh, hlatched⟩
            have hknown : Known (grant U s did model version) := by
              refine ⟨?_, h.dark⟩
              intro g hg
              rcases List.mem_cons.mp hg with rfl | hg
              · exact ⟨_, hkey, le_rfl⟩
              · exact h.lent g hg
            obtain ⟨hlends, hknown', hledger⟩ := ih hknown
            exact ⟨hgrant.trans hlends hledger, hknown', hledger⟩
          · exact ⟨Lends.of_same rfl rfl rfl, h, rfl⟩

/-! ## Rotation -/

omit [PyFloat F] in
/-- A key that is rotated, or dark, is blocked up to the version it had. -/
theorem rotateOne_some {mint : Mint} {left left' : List (String × Lease F)} {model : String}
    (hknown : Known s) (h : rotateOne mint s left model = some (s', left')) :
    Lends s s' ∧ Known s' ∧ s'.lent = s.lent ∧ s'.ledger = s.ledger ∧
      ∀ g ∈ s.lent, g.model = model → Blocked s' g.model g.version := by
  rw [rotateOne.eq_def] at h
  split at h
  · next hkey =>
      cases h
      refine ⟨Lends.of_same rfl rfl rfl, hknown, rfl, rfl, ?_⟩
      rintro g hg rfl
      obtain ⟨current, hcurrent, -⟩ := hknown.lent g hg
      rw [hkey] at hcurrent
      cases hcurrent
  · next version secret hkey =>
      cases h
      refine ⟨⟨?_, [], rfl, fun _ h => nomatch h⟩, ⟨hknown.lent, ?_⟩, rfl, rfl, ?_⟩
      · rintro m v (hb | ⟨exposed, hexposed, hle⟩)
        · exact .inl hb
        · right
          rw [StrMap.get_insert]
          split_ifs with heq
          · subst heq
            obtain ⟨current, hcurrent, hdark⟩ := hknown.dark _ _ hexposed
            rw [hkey] at hcurrent
            cases hcurrent
            exact ⟨version, rfl, hle.trans hdark⟩
          · exact ⟨exposed, hexposed, hle⟩
      · intro m exposed hexposed
        dsimp only at hexposed ⊢
        rw [StrMap.get_insert] at hexposed
        split_ifs at hexposed with heq
        · cases hexposed
          subst heq
          exact ⟨_, hkey, le_rfl⟩
        · exact hknown.dark m exposed hexposed
      · rintro g hg rfl
        obtain ⟨current, hcurrent, hle⟩ := hknown.lent g hg
        rw [hkey] at hcurrent
        cases hcurrent
        exact .inr ⟨version, by rw [StrMap.get_insert, if_pos rfl], hle⟩
  · next version secret f hkey =>
      split at h
      · cases h
      · next minted hminted =>
          cases h
          have hnewer : ∀ current, s.keys[model]? = some current → current.1 ≤ version + 1 := by
            intro current hcurrent
            rw [hkey] at hcurrent
            cases hcurrent
            exact Nat.le_succ version
          refine ⟨⟨?_, [], rfl, fun _ h => nomatch h⟩,
            hknown.insert_key hnewer rfl rfl rfl, rfl, rfl, ?_⟩
          · intro m v hb
            refine blocked_insert_key minted hnewer ?_ ?_ hb <;> rfl
          · rintro g hg rfl
            obtain ⟨current, hcurrent, hle⟩ := hknown.lent g hg
            rw [hkey] at hcurrent
            cases hcurrent
            exact .inl ⟨_, by rw [StrMap.get_insert, if_pos rfl], Nat.lt_succ_of_le hle⟩

omit [PyFloat F] in
theorem rotateOne_isSome {mint : Mint} {left : List (String × Lease F)} {model : String}
    (hmint : ∀ f, mint = some f → f model ≠ none) : (rotateOne mint s left model).isSome := by
  rw [rotateOne.eq_def]
  split
  · rfl
  · rfl
  · next f _ =>
      split
      · next hnone => exact absurd hnone (hmint f rfl)
      · rfl

omit [PyFloat F] in
/-- Rotating models one after the other lends nothing, and blocks what was lent
of them unless the hook raises. -/
theorem rotateAll_spec {mint : Mint} {models : List String} {left : List (String × Lease F)}
    (hknown : Known s) :
    Lends s (rotateAll mint s left models).1 ∧ Known (rotateAll mint s left models).1 ∧
      (rotateAll mint s left models).1.lent = s.lent ∧
      (rotateAll mint s left models).1.ledger = s.ledger ∧
      ((∀ f, mint = some f → ∀ model ∈ models, f model ≠ none) →
        ∀ g ∈ s.lent, g.model ∈ models →
          Blocked (rotateAll mint s left models).1 g.model g.version) := by
  induction models generalizing s left with
  | nil => exact ⟨Lends.of_same rfl rfl rfl, hknown, rfl, rfl, fun _ _ _ h => nomatch h⟩
  | cons model models ih =>
      rw [rotateAll]
      split
      · next hraised =>
          refine ⟨Lends.of_same rfl rfl rfl, hknown, rfl, rfl, ?_⟩
          intro hmint
          have hsome : (rotateOne mint s left model).isSome :=
            rotateOne_isSome (fun f hf => hmint f hf model List.mem_cons_self)
          rw [hraised] at hsome
          cases hsome
      · next s₁ left₁ hone =>
          obtain ⟨hlends, hknown₁, hlent, hledger, hblocked⟩ := rotateOne_some hknown hone
          obtain ⟨hlends', hknown', hlent', hledger', hblocked'⟩ := @ih s₁ left₁ hknown₁
          refine ⟨hlends.trans hlends' hledger', hknown', hlent'.trans hlent,
            hledger'.trans hledger, ?_⟩
          intro hmint g hg hmodel
          rcases List.mem_cons.mp hmodel with heq | hmem
          · exact hlends'.blocked _ _ (hblocked g hg heq)
          · refine hblocked' (fun f hf m hm => hmint f hf m (List.mem_cons_of_mem _ hm)) g ?_ hmem
            rw [hlent]
            exact hg

/-! ## Latches -/

omit [PyFloat F] in
theorem mem_foldl_latchOne {id t : String} {ts : List String} {l : MutinyLedger F}
    (h : t ∈ (ts.foldl (MutinyLedger.latchOne id) l).latches) : t ∈ l.latches ∨ t ∈ ts := by
  induction ts generalizing l with
  | nil => exact .inl h
  | cons t' ts ih =>
      rcases ih h with hmem | hmem
      · rw [MutinyLedger.latchOne] at hmem
        split_ifs at hmem
        · exact .inl hmem
        · rcases StrMap.mem_insert.mp hmem with rfl | hmem
          · exact .inr List.mem_cons_self
          · exact .inl hmem
      · exact .inr (List.mem_cons_of_mem _ hmem)

/-- What an incident latches are its targets. -/
theorem mem_add {obj : Value F} {inc : Incident F} {t : String} (hinc : newIncident U s obj = some inc)
    (h : t ∈ (s.ledger.add U.C U.trust U.K obj).latches) : t ∈ s.ledger.latches ∨ t ∈ inc.targets := by
  obtain ⟨hverify, hnew⟩ := Option.filter_eq_some_iff.mp hinc
  rw [MutinyLedger.add, hverify] at h
  dsimp only at h
  rw [if_neg (by simpa using hnew)] at h
  have hmem := mem_foldl_latchOne h
  exact hmem

omit [PyFloat F] in
theorem mem_foldl_unlatchOne {ids : List String} {t : String} {ts : List String} {l : MutinyLedger F}
    (h : t ∈ (ts.foldl (MutinyLedger.unlatchOne ids) l).latches) : t ∈ l.latches := by
  induction ts generalizing l with
  | nil => exact h
  | cons t' ts ih =>
      have hmem := ih h
      rw [MutinyLedger.unlatchOne] at hmem
      split at hmem
      · exact hmem
      · next held hheld =>
          split_ifs at hmem
          · exact (StrMap.mem_erase.mp hmem).2
          · rcases StrMap.mem_insert.mp hmem with rfl | hmem
            · exact StrMap.mem_of_get hheld
            · exact hmem

theorem mem_reset {obj : Value F} {t : String}
    (h : t ∈ (s.ledger.reset U.C U.trust obj).latches) : t ∈ s.ledger.latches := by
  rw [MutinyLedger.reset] at h
  split at h
  · exact h
  · split_ifs at h
    · exact h
    · have hmem := mem_foldl_unlatchOne h
      exact hmem

theorem partition_node (did : String) : partition (node_target did) = ("node", did) := by
  have hlist : (node_target did).toList = ['n', 'o', 'd', 'e', ':'] ++ did.toList := by
    rw [node_target, String.toList_append]
    rfl
  rw [partition, hlist]
  simp

omit [PyFloat F] in
/-- The models that a latched node holds a lease of are rotated. -/
theorem mem_toRotate {inc : Incident F} {did : String} {e : String × Lease F}
    (htarget : node_target did ∈ inc.targets) (he : e ∈ s.issued) (hsubject : e.2.subject = did) :
    e.2.model ∈ toRotate s inc := by
  have hnode : did ∈ refsOf "node" inc := by
    refine List.mem_filterMap.mpr ⟨node_target did, htarget, ?_⟩
    rw [partition_node]
    rfl
  rw [toRotate, sortedSet, List.mem_mergeSort, List.mem_dedup]
  refine List.mem_append_left _ (List.mem_map.mpr ⟨e, ?_, rfl⟩)
  exact List.mem_filter.mpr ⟨he, decide_eq_true (hsubject ▸ hnode)⟩

/-! ## Every run -/

/-- No version that a latched node was given is to be lent again. -/
structure Safe (s : Broker F) : Prop where
  known : Known s
  latched : ∀ did, s.ledger.is_latched (node_target did) = true → ∀ g ∈ s.lent, g.did = did →
    Blocked s g.model g.version

omit [PyFloat F] in
/-- A step that latches nobody. -/
theorem Safe.of_lends (h : Safe s) (hlends : Lends s s') (hknown : Known s')
    (hlatched : ∀ t, s'.ledger.is_latched t = true → s.ledger.is_latched t = true) : Safe s' where
  known := hknown
  latched did hdid g hg hgdid := by
    obtain ⟨new, hnew, hfresh⟩ := hlends.lent
    rw [hnew] at hg
    rcases List.mem_append.mp hg with hg | hg
    · have hfree := (hfresh g hg).2
      rw [hgdid, hdid] at hfree
      cases hfree
    · exact hlends.blocked _ _ (h.latched did (hlatched _ hdid) g hg hgdid)

omit [PyFloat F] in
theorem is_latched_reset {l l' : MutinyLedger F} (h : ∀ t, t ∈ l'.latches → t ∈ l.latches) :
    ∀ t, l'.is_latched t = true → l.is_latched t = true := by
  intro t ht
  exact MutinyLedger.is_latched_iff_mem.mpr (h t (MutinyLedger.is_latched_iff_mem.mp ht))

/-- Grants go by the keys. -/
theorem lends_issue_due {t : Broker F} (U : BrokerConfig F) (now : F) (ok : Sealing) (hknown : Known s)
    (hkeys : t.keys = s.keys) (hdark : t.dark = s.dark) (hlent : t.lent = s.lent) :
    Lends s (issue_due U t now ok) ∧ Known (issue_due U t now ok) ∧
      (issue_due U t now ok).ledger = t.ledger := by
  obtain ⟨hlends, hknown', hledger⟩ := lends_issueAll U now ok
    (U.assignments.flatMap (fun a => a.2.map (fun model => (a.1, model))))
    (hknown.of_same hkeys hdark hlent)
  exact ⟨(Lends.of_same hkeys hdark hlent).trans hlends hledger, hknown', hledger⟩

/-- After an incident: nothing blocked was lent, and unless the hook raises all
that was lent of a model to rotate is blocked. -/
theorem on_incident_spec (U : BrokerConfig F) (inc : Incident F) (now : F) (ok : Sealing) (mint : Mint)
    (hknown : Known s) :
    Lends s (on_incident U s inc now ok mint) ∧ Known (on_incident U s inc now ok mint) ∧
      (on_incident U s inc now ok mint).ledger = s.ledger ∧
      ((∀ f, mint = some f → ∀ model ∈ toRotate s inc, f model ≠ none) →
        ∀ g ∈ s.lent, g.model ∈ toRotate s inc →
          Blocked (on_incident U s inc now ok mint) g.model g.version) := by
  rw [on_incident]
  generalize s.issued.filter _ = left
  obtain ⟨hlends, hknown', hlent, hledger, hblocked⟩ :=
    @rotateAll_spec _ s mint (toRotate s inc) left hknown
  split
  · next s₁ heq =>
      rw [heq] at hlends hknown' hledger hblocked
      exact ⟨hlends, hknown', hledger, hblocked⟩
  · next s₁ left₁ heq =>
      rw [heq] at hlends hknown' hledger hblocked
      obtain ⟨hissue, hknown'', hledger'⟩ := lends_issue_due U now ok
        (t := { s₁ with issued := left₁ }) hknown' rfl rfl rfl
      refine ⟨hlends.trans hissue hledger', hknown'', hledger'.trans hledger, ?_⟩
      intro hmint g hg hmodel
      exact hissue.blocked _ _ (hblocked hmint g hg hmodel)

theorem lends_incident {now : F} {ok : Sealing} {mint : Mint} {inc : Incident F}
    {l : MutinyLedger F} (hknown : Known s) :
    Lends s (on_incident U { s with ledger := l } inc now ok mint) ∧
      Known (on_incident U { s with ledger := l } inc now ok mint) := by
  have hledgered : Known { s with ledger := l } := hknown.of_same rfl rfl rfl
  obtain ⟨hlends, hknown', hledger, -⟩ :=
    on_incident_spec U inc now ok mint hledgered
  have hsame : Lends s { s with ledger := l } := Lends.of_same rfl rfl rfl
  exact ⟨hsame.trans hlends hledger, hknown'⟩

/-- What holds of any step. -/
theorem lends_step (hknown : Known s) (ev : BrokerEvent F) :
    Lends s (s.step U ev) ∧ Known (s.step U ev) := by
  cases ev with
  | tick now ok =>
      obtain ⟨hlends, hknown', -⟩ := lends_issue_due U now ok
        (t := { s with issued := s.issued.filter (fun e => !PyFloat.le e.2.expires_at now) })
        hknown rfl rfl rfl
      exact ⟨hlends, hknown'⟩
  | incident obj now ok mint =>
      rw [Broker.step]
      split
      · exact ⟨Lends.of_same rfl rfl rfl, hknown⟩
      · exact lends_incident hknown
  | reset obj now ok =>
      rw [Broker.step]
      split_ifs
      · obtain ⟨hlends, hknown', -⟩ := lends_issue_due U now ok
          (t := { s with ledger := s.ledger.reset U.C U.trust obj }) hknown rfl rfl rfl
        exact ⟨hlends, hknown'⟩
      · exact ⟨Lends.of_same rfl rfl rfl, hknown.of_same rfl rfl rfl⟩
  | set model secret =>
      have hnewer : ∀ current, s.keys[model]? = some current →
          current.1 ≤ ((s.keys[model]?).map Prod.fst).getD 0 + 1 := by
        intro current hcurrent
        rw [hcurrent]
        exact Nat.le_succ _
      refine ⟨⟨?_, [], rfl, fun _ h => nomatch h⟩, hknown.insert_key hnewer rfl rfl rfl⟩
      intro m v hb
      refine blocked_insert_key secret hnewer ?_ ?_ hb <;> rfl

/-- A step that meets the condition. -/
theorem Safe.step {ev : BrokerEvent F} (h : Safe s) (hkeeps : KeepsLeases U s ev) :
    Safe (s.step U ev) := by
  obtain ⟨hlends, hknown⟩ := lends_step (U := U) h.known ev
  cases ev with
  | tick now ok =>
      obtain ⟨-, -, hledger⟩ := lends_issue_due U now ok
        (t := { s with issued := s.issued.filter (fun e => !PyFloat.le e.2.expires_at now) })
        h.known rfl rfl rfl
      refine h.of_lends hlends hknown ?_
      intro t ht
      rwa [Broker.step, on_tick, hledger] at ht
  | incident obj now ok mint =>
      rw [Broker.step] at hlends hknown ⊢
      cases hinc : newIncident U s obj with
      | none => exact h
      | some inc =>
          rw [hinc] at hlends hknown
          dsimp only at hlends hknown ⊢
          have hledgered : Known { s with ledger := s.ledger.add U.C U.trust U.K obj } :=
            h.known.of_same rfl rfl rfl
          obtain ⟨-, -, hledger, hblocked⟩ := on_incident_spec U inc now ok
            mint hledgered
          refine ⟨hknown, ?_⟩
          intro did hdid g hg hgdid
          obtain ⟨new, hnew, hfresh⟩ := hlends.lent
          rw [hnew] at hg
          rcases List.mem_append.mp hg with hg | hg
          · have hfree := (hfresh g hg).2
            rw [hgdid, hdid] at hfree
            cases hfree
          · rw [hledger] at hdid
            cases hwas : s.ledger.is_latched (node_target did) with
            | true => exact hlends.blocked _ _ (h.latched did hwas g hg hgdid)
            | false =>
                rcases hkeeps inc did hinc hwas hdid g hg hgdid with hb | ⟨⟨e, he, hs, hm⟩, hmint⟩
                · exact hlends.blocked _ _ hb
                · -- the broker still knows of the key and rotates it
                  have htarget : node_target did ∈ inc.targets := by
                    refine (mem_add hinc (MutinyLedger.is_latched_iff_mem.mp hdid)).resolve_left ?_
                    intro hmem
                    rw [MutinyLedger.is_latched_iff_mem.mpr hmem] at hwas
                    cases hwas
                  exact hblocked hmint g hg (hm ▸ mem_toRotate htarget he hs)
  | reset obj now ok =>
      refine h.of_lends hlends hknown (is_latched_reset ?_)
      intro t ht
      refine @mem_reset _ _ _ U obj _ ?_
      rw [Broker.step] at ht
      split_ifs at ht
      · obtain ⟨-, -, hledger⟩ := lends_issue_due U now ok
          (t := { s with ledger := s.ledger.reset U.C U.trust obj }) h.known rfl rfl rfl
        rwa [hledger] at ht
      · exact ht
  | set model secret => exact h.of_lends hlends hknown (fun _ ht => ht)

theorem Safe.run {es : List (BrokerEvent F)} (h : Safe s) (hkeep : AllKeep U s es) :
    Safe (s.run U es) := by
  induction es generalizing s with
  | nil => exact h
  | cons ev es ih => exact ih (h.step hkeep.1) hkeep.2

/-- What is blocked is not lent in any run from there. -/
theorem lent_run (U : BrokerConfig F) (es : List (BrokerEvent F)) (hknown : Known s) :
    ∃ new, (s.run U es).lent = new ++ s.lent ∧ ∀ g ∈ new, ¬ Blocked s g.model g.version := by
  induction es generalizing s with
  | nil => exact ⟨[], rfl, fun _ h => nomatch h⟩
  | cons ev es ih =>
      obtain ⟨hlends, hknown'⟩ := lends_step (U := U) hknown ev
      obtain ⟨new, hnew, hfresh⟩ := hlends.lent
      obtain ⟨later, hlater, hfresh'⟩ := ih hknown'
      refine ⟨later ++ new, ?_, ?_⟩
      · rw [Broker.run, List.foldl_cons, ← Broker.run, hlater, hnew, List.append_assoc]
      · intro g hg hb
        rcases List.mem_append.mp hg with hg | hg
        · exact hfresh' g hg (hlends.blocked _ _ hb)
        · exact (hfresh g hg).1 hb

omit [PyFloat F] in
theorem safe_init (keys : StrMap (Nat × String)) : Safe ({ keys } : Broker F) where
  known :=
    { lent := fun _ h => nomatch h
      dark := fun model exposed h => by
        rw [StrMap.get_empty] at h
        cases h }
  latched _ _ _ h := nomatch h

/-- In a run that keeps the leases it needs, whatever a node that is latched
was given is lent to nobody from then on, whatever comes after. -/
theorem never_lent_again (U : BrokerConfig F) (keys : StrMap (Nat × String))
    (es later : List (BrokerEvent F)) (h : AllKeep U { keys } es) :
    ∃ new, (Broker.run U { keys } (es ++ later)).lent = new ++ (Broker.run U { keys } es).lent ∧
      ∀ did, (Broker.run U { keys } es).ledger.is_latched (node_target did) = true →
        ∀ g ∈ (Broker.run U { keys } es).lent, g.did = did →
          ∀ g' ∈ new, ¬ (g'.model = g.model ∧ g'.version = g.version) := by
  have hsafe := (safe_init keys).run h
  obtain ⟨new, hnew, hfresh⟩ := lent_run U later hsafe.known
  refine ⟨new, ?_, ?_⟩
  · rw [← hnew, Broker.run, Broker.run, Broker.run, List.foldl_append]
  · rintro did hdid g hg hgdid g' hg' ⟨hmodel, hversion⟩
    refine hfresh g' hg' ?_
    rw [hmodel, hversion]
    exact hsafe.latched did hdid g hg hgdid

end

/-! ## A lease that lapsed -/

namespace Lapsed

def tampered : Value (Option Int) :=
  .obj [("proposal", .obj []), ("reporter", .str "did:n"), ("violation", .str "v")]

def leased : Value (Option Int) :=
  .obj [("response", .obj [("lease", .null), ("provider", .str "did:n")])]

/-- One digest for the first incident, another for everything else. -/
def crypto : Crypto where
  sha256 b := if b = canonical (idValue .decider_self_reported tampered) then [0] else [1]
  b64decode _ := some []
  publicKey _ := some []
  verify _ _ _ := true

def trust : TrustRoots where
  mesh _ := true
  users _ := false
  deciders _ := true
  coordinators _ := false
  brokers _ := false
  operators _ := false

def checks : Checks (Option Int) where
  check_response _ _ := none
  request_evidence_ok _ := true
  check_lease _ := some "unknown broker"
  check_decision _ _ := none
  decision_violations _ _ := []
  check_advisory _ := none
  routed_through _ _ := []
  canary_leaked _ _ := false
  forbidden _ := []

theorem canonical_ne : canonical (idValue .provider_lease_violation leased) ≠
    canonical (idValue .decider_self_reported tampered) := by
  intro h
  have htext := congrArg String.toList (String.toByteArray_inj.mp h)
  rw [toStr, toStr, String.toList_ofList, String.toList_ofList] at htext
  simp [idValue, writeValue, writeMembers, leased, tampered, writeStr, escape, escapeChar, shortEscape] at htext

theorem id_ne : incident_id crypto .provider_lease_violation leased ≠
    incident_id crypto .decider_self_reported tampered := by
  rw [incident_id, incident_id, digest, digest, crypto]
  dsimp only
  rw [if_neg canonical_ne, if_pos rfl]
  decide

def report (kind : Kind) (ev : Value (Option Int)) : Value (Option Int) :=
  .obj [("evidence", ev), ("incident_id", .str (incident_id crypto kind ev)), ("issued_at", .int 0),
    ("kind", .str kind.text), ("reporter", .str "did:n"), ("sig", .str ""),
    ("signer", .str "did:n"), ("type", .str INCIDENT)]

theorem verify_report {kind : Kind} {ev : Value (Option Int)} {target : String}
    (hkind : Kind.ofText kind.text = some kind) (hobj : ev.asObj ≠ none)
    (hverify : verifier trust checks kind ev "did:n" = some [target]) :
    verify_incident crypto trust checks (report kind ev) =
      some ⟨incident_id crypto kind ev, kind, [target], "did:n", report kind ev⟩ := by
  have hsigned : signed_by crypto (report kind ev) INCIDENT "reporter" trust.peers = none := by
    simp [signed_by, report, getStr, get, Value.asObj, objGet, Value.asStr, verifyPayload, crypto,
      TrustRoots.peers, trust]
  have hkind' : (getStr (report kind ev) "kind").bind Kind.ofText = some kind := by
    simp [getStr, get, report, Value.asObj, objGet, Value.asStr, hkind]
  have hev : get (report kind ev) "evidence" = some ev := by
    simp [get, report, Value.asObj, objGet]
  have hreporter : getStr (report kind ev) "reporter" = some "did:n" := by
    simp [getStr, get, report, Value.asObj, objGet, Value.asStr]
  have hid : getStr (report kind ev) "incident_id" = some (incident_id crypto kind ev) := by
    simp [getStr, get, report, Value.asObj, objGet, Value.asStr]
  have hat : is_num (get (report kind ev) "issued_at") = true := by
    have hget : get (report kind ev) "issued_at" = some (.int 0) := by
      simp [get, report, Value.asObj, objGet]
    simp only [hget, is_num, Int.natAbs_zero, decide_eq_true_eq]
    exact Nat.sub_pos_of_lt (Nat.pow_lt_pow_right Nat.one_lt_two (by decide))
  simp [verify_incident, hsigned, hkind', hev, hreporter, hid, hat, hobj, hverify]

theorem verifier_tampered : verifier trust checks .decider_self_reported tampered "did:n" =
    some ["decider:did:n"] := by
  have hsize : (canonical (.obj [] : Value (Option Int))).size = 2 := by decide
  have hproposal : get tampered "proposal" = some (.obj []) := by
    simp [get, tampered, Value.asObj, objGet]
  have hviolation : violationText tampered = some "v" := by
    have hlen : ("v" : String).length ≤ MAX_REASON := by decide
    simp [violationText, getStr, get, tampered, Value.asObj, objGet, Value.asStr, hlen]
  have hreporter : getStr tampered "reporter" = some "did:n" := by
    simp [getStr, get, tampered, Value.asObj, objGet, Value.asStr]
  rw [verifier, decider_self_reported, hreporter, hviolation, hproposal]
  dsimp only [Option.bind_eq_bind, Option.bind_some]
  rw [hsize]
  rfl

theorem verifier_leased : verifier trust checks .provider_lease_violation leased "did:n" =
    some ["node:did:n"] := by
  have hresponse : get leased "response" =
      some (.obj [("lease", .null), ("provider", .str "did:n")]) := by
    simp [get, leased, Value.asObj, objGet]
  rw [verifier, lease_violation, hresponse]
  simp [checks, get, getStr, Value.asObj, objGet, Value.asStr, node_target]

/-- Two nodes for one model; leases are for 600 seconds. -/
def config : BrokerConfig (Option Int) where
  C := crypto
  trust := trust
  K := checks
  assignments := [("did:n", ["m"]), ("did:o", ["m"])]
  lease_ttl := some 600
  lease_renew_at := some 0
  ids n := toString n
  clock n := if n < 2 then some 0 else some 700

def keys : StrMap (Nat × String) := (∅ : StrMap _).insert "m" (1, "secret")

def sealed : Sealing := fun _ _ => true

theorem latches_add {l : MutinyLedger (Option Int)} {kind : Kind} {ev : Value (Option Int)}
    {target : String}
    (hverify : verify_incident crypto trust checks (report kind ev) =
      some ⟨incident_id crypto kind ev, kind, [target], "did:n", report kind ev⟩)
    (hnew : incident_id crypto kind ev ∉ l.incidents) (hcleared : l.cleared = ∅) :
    (∀ t, (l.add crypto trust checks (report kind ev)).is_latched t = (decide (target = t) || l.is_latched t)) ∧
      (∀ i, i ∈ (l.add crypto trust checks (report kind ev)).incidents ↔ incident_id crypto kind ev = i ∨ i ∈ l.incidents) ∧
      (l.add crypto trust checks (report kind ev)).cleared = ∅ := by
  rw [MutinyLedger.add, hverify]
  dsimp only
  rw [if_neg (by simpa using hnew), List.foldl_cons, List.foldl_nil, MutinyLedger.latchOne,
    if_neg (by simp [hcleared])]
  refine ⟨?_, ?_, hcleared⟩
  · intro t
    rw [Bool.eq_iff_iff]
    simp [MutinyLedger.is_latched]
  · intro i
    simp

theorem verify_first : verify_incident crypto trust checks (report .decider_self_reported tampered) =
    some ⟨incident_id crypto .decider_self_reported tampered, .decider_self_reported,
      ["decider:did:n"], "did:n", report .decider_self_reported tampered⟩ :=
  verify_report rfl (by simp [tampered, Value.asObj]) verifier_tampered

theorem verify_second : verify_incident crypto trust checks (report .provider_lease_violation leased) =
    some ⟨incident_id crypto .provider_lease_violation leased, .provider_lease_violation,
      ["node:did:n"], "did:n", report .provider_lease_violation leased⟩ :=
  verify_report rfl (by simp [leased, Value.asObj]) verifier_leased

/-- The ledger after the first incident, and after the second. -/
theorem latched_first : ∃ l : MutinyLedger (Option Int),
    ({} : MutinyLedger (Option Int)).add crypto trust checks (report .decider_self_reported tampered)
        = l ∧
      (∀ t, l.is_latched t = decide ("decider:did:n" = t)) ∧
      incident_id crypto .provider_lease_violation leased ∉ l.incidents ∧
      ∃ l', l.add crypto trust checks (report .provider_lease_violation leased) = l' ∧
        ∀ t, l'.is_latched t = (decide ("node:did:n" = t) || decide ("decider:did:n" = t)) := by
  obtain ⟨hlatched, hincidents, hcleared⟩ :=
    latches_add (l := {}) verify_first Std.ExtTreeMap.not_mem_empty rfl
  have hnew : incident_id crypto .provider_lease_violation leased ∉
      (({} : MutinyLedger (Option Int)).add crypto trust checks
        (report .decider_self_reported tampered)).incidents := by
    rw [hincidents]
    rintro (heq | hmem)
    · exact id_ne heq.symm
    · exact Std.ExtTreeMap.not_mem_empty hmem
  have hfirst : ∀ t, (({} : MutinyLedger (Option Int)).add crypto trust checks
      (report .decider_self_reported tampered)).is_latched t = decide ("decider:did:n" = t) := by
    intro t
    rw [hlatched, show ({} : MutinyLedger (Option Int)).is_latched t = false by
      simp [MutinyLedger.is_latched], Bool.or_false]
  refine ⟨_, rfl, hfirst, hnew, _, rfl, ?_⟩
  intro t
  rw [(latches_add verify_second hnew hcleared).1, hfirst]

/-- The node gets nothing, the other one does. -/
structure Excluded (l : MutinyLedger (Option Int)) : Prop where
  model : l.is_latched "model:m" = false
  node : excludes_node l "did:n" = true
  other : excludes_node l "did:o" = false

theorem excluded_first {l : MutinyLedger (Option Int)}
    (h : ∀ t, l.is_latched t = decide ("decider:did:n" = t)) : Excluded l where
  model := by
    rw [h]
    decide
  node := by
    rw [excludes_node, h, h]
    decide
  other := by
    rw [excludes_node, h, h]
    decide

theorem excluded_second {l : MutinyLedger (Option Int)}
    (h : ∀ t, l.is_latched t = (decide ("node:did:n" = t) || decide ("decider:did:n" = t))) :
    Excluded l where
  model := by
    rw [h]
    decide
  node := by
    rw [excludes_node, h, h]
    decide
  other := by
    rw [excludes_node, h, h]
    decide

def lease (did : String) (expires_at : Int) : Lease (Option Int) := ⟨did, "m", 1, some expires_at⟩

/-- What is due to a node, as long as there is one key. -/
theorem due_m {s : Broker (Option Int)} {now : Option Int} {did : String} (hkeys : s.keys = keys)
    (hdark : s.dark = ∅) (hmodel : s.ledger.is_latched "model:m" = false) :
    due config s now did "m" =
      if excludes_node s.ledger did then none
      else if s.issued.any (fun e => decide (e.2.subject = did ∧ e.2.model = "m" ∧
        e.2.key_version = 1) && PyFloat.lt (some 0) (PyFloat.sub e.2.expires_at now)) then none
      else some 1 := by
  have hmul : PyFloat.mul config.lease_ttl config.lease_renew_at = some 0 := rfl
  have hkey : s.keys["m"]? = some (1, "secret") := by
    rw [hkeys, keys, StrMap.get_insert, if_pos rfl]
  have hdark' : s.dark["m"]? = none := by
    rw [hdark, StrMap.get_empty]
  rw [due, hkey, hdark', hmul]
  dsimp only
  rw [show model_target "m" = "model:m" from rfl, hmodel]
  rfl

def first : Broker (Option Int) where
  keys := keys
  issued := [("0", lease "did:n" 600), ("1", lease "did:o" 600)]
  lent := [⟨"did:o", "m", 1⟩, ⟨"did:n", "m", 1⟩]

theorem issueAll_none {U : BrokerConfig (Option Int)} {s : Broker (Option Int)} {now : Option Int} {ok : Sealing} {did model : String}
    {rest : List (String × String)} (h : due U s now did model = none) :
    issueAll U now ok s ((did, model) :: rest) = issueAll U now ok s rest := by
  rw [issueAll, h]

theorem issueAll_some {U : BrokerConfig (Option Int)} {s : Broker (Option Int)} {now : Option Int} {ok : Sealing} {did model : String} {version : Nat}
    {rest : List (String × String)} (h : due U s now did model = some version)
    (hok : ok did model = true) : issueAll U now ok s ((did, model) :: rest) =
      issueAll U now ok (grant U s did model version) rest := by
  rw [issueAll, h]
  exact if_pos hok

/-- Both nodes are asked about, in order. -/
theorem issue_due_eq (s : Broker (Option Int)) (now : Option Int) :
    issue_due config s now sealed =
      issueAll config now sealed s [("did:n", "m"), ("did:o", "m")] := rfl

theorem step_first : Broker.step config { keys } (.tick (some 0) sealed) = first := by
  rw [Broker.step, on_tick, issue_due_eq]
  rw [issueAll_some (show due config _ _ _ _ = some 1 by rw [due_m rfl rfl rfl]; decide) rfl]
  rw [issueAll_some (show due config _ _ _ _ = some 1 by rw [due_m rfl rfl rfl]; decide) rfl]
  rfl

def firstIncident : Incident (Option Int) :=
  ⟨incident_id crypto .decider_self_reported tampered, .decider_self_reported, ["decider:did:n"],
    "did:n", report .decider_self_reported tampered⟩

def secondIncident : Incident (Option Int) :=
  ⟨incident_id crypto .provider_lease_violation leased, .provider_lease_violation, ["node:did:n"],
    "did:n", report .provider_lease_violation leased⟩

theorem refs_first : refsOf "node" firstIncident = [] ∧ refsOf "model" firstIncident = [] := by
  decide

theorem refs_second : refsOf "node" secondIncident = ["did:n"] ∧
    refsOf "model" secondIncident = [] := by
  decide

theorem sortedSet_nil : sortedSet [] = [] := by
  rw [sortedSet, List.dedup_nil, List.mergeSort_nil]

/-- An incident at which there is nothing to rotate. -/
theorem on_incident_nil {s : Broker (Option Int)} {inc : Incident (Option Int)} {now : Option Int}
    (h : toRotate s inc = []) : on_incident config s inc now sealed none =
      issue_due config { s with issued := s.issued.filter (fun e =>
        !decide (e.2.subject ∈ refsOf "node" inc ∨ e.2.model ∈ refsOf "model" inc)) } now sealed := by
  rw [on_incident, h]
  rfl

theorem new_first {s : Broker (Option Int)} (hledger : s.ledger = {}) :
    newIncident config s (report .decider_self_reported tampered) = some firstIncident := by
  rw [newIncident, show verify_incident config.C config.trust config.K _ = _ from verify_first, hledger]
  exact Option.filter_eq_some_iff.mpr ⟨rfl, by simp⟩

theorem new_second {s : Broker (Option Int)}
    (hnew : incident_id crypto .provider_lease_violation leased ∉ s.ledger.incidents) :
    newIncident config s (report .provider_lease_violation leased) = some secondIncident := by
  rw [newIncident, show verify_incident config.C config.trust config.K _ = _ from verify_second]
  exact Option.filter_eq_some_iff.mpr ⟨rfl, by simpa [secondIncident] using hnew⟩

variable {l l' : MutinyLedger (Option Int)}

theorem due_node {s : Broker (Option Int)} (hkeys : s.keys = keys) (hdark : s.dark = ∅)
    (hl : Excluded s.ledger) (now : Option Int) : due config s now "did:n" "m" = none := by
  rw [due_m hkeys hdark hl.model, hl.node]
  rfl

theorem due_other {s : Broker (Option Int)} {L : List (String × Lease (Option Int))}
    (hkeys : s.keys = keys) (hdark : s.dark = ∅) (hl : Excluded s.ledger) (hissued : s.issued = L)
    (now : Option Int) : due config s now "did:o" "m" =
      if L.any (fun e => decide (e.2.subject = "did:o" ∧ e.2.model = "m" ∧
        e.2.key_version = 1) && PyFloat.lt (some 0) (PyFloat.sub e.2.expires_at now)) then none
      else some 1 := by
  rw [due_m hkeys hdark hl.model, hl.other, hissued]
  rfl

theorem step_second (hadd : ({} : MutinyLedger (Option Int)).add crypto trust checks
      (report .decider_self_reported tampered) = l) (hl : Excluded l) :
    first.step config (.incident (report .decider_self_reported tampered) (some 0) sealed none) =
      { first with ledger := l } := by
  rw [Broker.step, new_first rfl]
  dsimp only
  rw [on_incident_nil, refs_first.1, refs_first.2, issue_due_eq,
    show first.ledger.add config.C config.trust config.K _ = l from hadd]
  · rw [issueAll_none (due_node rfl rfl hl _)]
    rw [issueAll_none (by rw [due_other (L := [("0", lease "did:n" 600), ("1", lease "did:o" 600)]) rfl rfl hl rfl]; decide)]
    rfl
  · rw [toRotate, refs_first.1]
    exact sortedSet_nil

def third (l : MutinyLedger (Option Int)) : Broker (Option Int) :=
  { first with
    ledger := l
    issued := [("2", lease "did:o" 1300)]
    lent := ⟨"did:o", "m", 1⟩ :: first.lent }

theorem grant_third {s : Broker (Option Int)} (hissued : s.issued = [])
    (hlent : s.lent = [⟨"did:o", "m", 1⟩, ⟨"did:n", "m", 1⟩]) : grant config s "did:o" "m" 1 =
      { s with
        issued := [("2", lease "did:o" 1300)]
        lent := ⟨"did:o", "m", 1⟩ :: first.lent } := by
  rw [grant, hlent, hissued]
  rfl

theorem step_third (hl : Excluded l) :
    Broker.step config { first with ledger := l } (.tick (some 700) sealed) = third l := by
  rw [Broker.step, on_tick, issue_due_eq]
  rw [issueAll_none (due_node rfl rfl hl _)]
  rw [issueAll_some (show due config _ _ _ _ = some 1 by
    rw [due_other (L := []) rfl rfl hl rfl]; rfl) rfl]
  rw [grant_third rfl rfl]
  rfl

theorem step_fourth (hadd : l.add crypto trust checks (report .provider_lease_violation leased) = l')
    (hnew : incident_id crypto .provider_lease_violation leased ∉ l.incidents) (hl' : Excluded l') :
    (third l).step config (.incident (report .provider_lease_violation leased)
      (some 700) sealed none) = third l' := by
  rw [Broker.step, new_second hnew]
  dsimp only
  rw [on_incident_nil, refs_second.1, refs_second.2, issue_due_eq,
    show (third l).ledger.add config.C config.trust config.K _ = l' from hadd]
  · rw [issueAll_none (due_node rfl rfl hl' _)]
    rw [issueAll_none (by
      rw [due_other (L := [("2", lease "did:o" 1300)]) rfl rfl hl' rfl]; decide)]
    rfl
  · rw [toRotate, refs_second.1]
    exact sortedSet_nil

theorem lent_fifth (hl' : Excluded l') :
    ((third l').step config (.tick (some 1400) sealed)).lent =
      ⟨"did:o", "m", 1⟩ :: (third l').lent := by
  rw [Broker.step, on_tick, issue_due_eq]
  rw [issueAll_none (due_node rfl rfl hl' _)]
  rw [issueAll_some (show due config _ _ _ _ = some 1 by
    rw [due_other (L := []) rfl rfl hl' rfl]; rfl) rfl]
  rfl

/-- A provider that mints the key of any model. -/
def minted : Mint := some (fun _ => some "new")

def keeping : List (BrokerEvent (Option Int)) :=
  [.tick (some 0) sealed,
    .incident (report .provider_lease_violation leased) (some 0) sealed minted]

theorem allKeep_keeping : AllKeep config { keys } keeping := by
  refine ⟨trivial, ?_, trivial⟩
  rw [step_first]
  intro inc did _ _ hlatched g hg hgdid
  obtain ⟨hadded, -, -⟩ :=
    latches_add (l := first.ledger) verify_second Std.ExtTreeMap.not_mem_empty rfl
  have htarget : node_target did = "node:did:n" := by
    have htrue := (hadded (node_target did)).symm.trans hlatched
    simpa [first, MutinyLedger.is_latched, eq_comm] using htrue
  refine Or.inr ⟨?_, fun f hf model _ => by cases hf; exact Option.some_ne_none _⟩
  rcases List.mem_cons.mp hg with rfl | hg
  · cases hgdid
    exact absurd htarget (by decide)
  · cases List.mem_singleton.mp hg
    exact ⟨("0", lease "did:n" 600), List.mem_cons_self, hgdid, rfl⟩

/-- While the node holds its lease the latch rotates the key. -/
theorem never_lent_again_keeping :
    ∃ new, (Broker.run config { keys } (keeping ++ [.tick (some 1400) sealed])).lent =
        new ++ (Broker.run config { keys } keeping).lent ∧
      ∀ did, (Broker.run config { keys } keeping).ledger.is_latched (node_target did) = true →
        ∀ g ∈ (Broker.run config { keys } keeping).lent, g.did = did →
          ∀ g' ∈ new, ¬ (g'.model = g.model ∧ g'.version = g.version) :=
  never_lent_again config keys keeping [.tick (some 1400) sealed] allKeep_keeping

def events : List (BrokerEvent (Option Int)) :=
  [.tick (some 0) sealed, .incident (report .decider_self_reported tampered) (some 0) sealed none,
    .tick (some 700) sealed, .incident (report .provider_lease_violation leased) (some 700) sealed none]

/-- The decider of the node is latched, so that its lease lapses; then the node
is, and the key it was given goes to the other node again. -/
theorem lent_again_lapsed : ¬ ∀ (es later : List (BrokerEvent (Option Int))),
    ∃ new, (Broker.run config { keys } (es ++ later)).lent =
        new ++ (Broker.run config { keys } es).lent ∧
      ∀ did, (Broker.run config { keys } es).ledger.is_latched (node_target did) = true →
        ∀ g ∈ (Broker.run config { keys } es).lent, g.did = did →
          ∀ g' ∈ new, ¬ (g'.model = g.model ∧ g'.version = g.version) := by
  intro h
  obtain ⟨l, hadd, hlatched, hnew, l', hadd', hlatched'⟩ := latched_first
  have hl := excluded_first hlatched
  have hl' := excluded_second hlatched'
  have hrun : Broker.run config { keys } events = third l' := by
    rw [events, Broker.run, List.foldl_cons, step_first, List.foldl_cons, step_second hadd hl,
      List.foldl_cons, step_third hl, List.foldl_cons, step_fourth hadd' hnew hl', List.foldl_nil]
  obtain ⟨new, hlent, hfresh⟩ := h events [.tick (some 1400) sealed]
  have hagain : (Broker.run config { keys } (events ++ [.tick (some 1400) sealed])).lent =
      [⟨"did:o", "m", 1⟩] ++ (third l').lent := by
    rw [Broker.run, List.foldl_append]
    rw [Broker.run] at hrun
    rw [hrun]
    exact lent_fifth hl'
  rw [hrun] at hlent hfresh
  have hnew' : new = [⟨"did:o", "m", 1⟩] := List.append_cancel_right (hlent.symm.trans hagain)
  refine hfresh "did:n" ?_ ⟨"did:n", "m", 1⟩ ?_ rfl ⟨"did:o", "m", 1⟩ ?_ ⟨rfl, rfl⟩
  · rw [show (third l').ledger = l' from rfl, hlatched']
    decide
  · simp [third, first]
  · rw [hnew']
    exact List.mem_singleton_self _

end Lapsed
end Secdogie.Inference
