/-
# `Secdogie.Transport.Gossip` — revocations, passed on from node to node

A node that is told of a revocation applies it, and sends it to every peer it
knows if it revoked anything new.  So a node that had the revocation before,
from its own store, does not pass it on when it comes.  `covers` says when a
record gets to everyone all the same.
-/
import Secdogie.Identity.Trust
import Secdogie.Transport.Membership

namespace Secdogie.Transport

open Secdogie.Graph Secdogie.Identity

def REVOCATION_GOSSIP : String := "secdogie/revocation/gossip/v1"

/-- What does not change: who there is, whom each one knows, and what is at an
address. -/
structure Mesh (ι F : Type) where
  C : Crypto
  masters : MasterSet
  did : ι → String
  /-- `none` for a node that only receives and applies -/
  membership : ι → Option (MembershipView F)
  locate : String × Int → Option ι

structure GossipState (ι F : Type) where
  policy : ι → TrustPolicy F
  file : ι → Option ByteArray
  /-- to whom, and the frame -/
  inflight : List (ι × Value F) := []
  /-- what was ever sent: by whom, to whom, and the frame, newest first -/
  sent : List (ι × ι × Value F) := []

inductive GossipEvent (ι F : Type) where
  | announce (i : ι) (record : Value F) (w : Write)
  /-- what is in flight at this place arrives -/
  | deliver (k : Nat) (w : Write)
  /-- a frame from anybody -/
  | frame (i : ι) (obj : Value F) (w : Write)
  /-- the record is applied by other code, `revoke-apply` say -/
  | apply (i : ι) (record : Value F) (w : Write)
  /-- the store is found to have changed, and to hold this -/
  | refresh (i : ι) (objs : List (Value F))

def frameOf {F : Type} (record : Value F) : Value F :=
  .obj [("record", record), ("t", .str REVOCATION_GOSSIP)]

section

variable {ι F : Type}

/-- Where a node with this DID sends to, in order. -/
def addresses (did : String) (view : MembershipView F) : List (String × Int) :=
  view.keys.filterMap (fun d =>
    if d = did then none
    else (view[d]?).bind (fun rec => (EndpointSet.best rec.endpoints).map Endpoint.key))

variable (M : Mesh ι F)

/-- Whom a node sends to. -/
def Mesh.peers (i : ι) : List ι :=
  match M.membership i with
  | none => []
  | some view => (addresses (M.did i) view).filterMap M.locate

def broadcast (s : GossipState ι F) (i : ι) (record : Value F) : GossipState ι F :=
  { s with
    inflight := s.inflight ++ (M.peers i).map (fun k => (k, frameOf record))
    sent := (M.peers i).map (fun k => (i, k, frameOf record)) ++ s.sent }

variable [PyFloat F] [DecidableEq ι]

/-- The policy of one node applies the record. -/
def applyAt (s : GossipState ι F) (i : ι) (record : Value F) (w : Write) : GossipState ι F :=
  let m := (s.policy i).apply M.C (s.file i) record w
  { s with
    policy := Function.update s.policy i m.policy
    file := Function.update s.file i m.file }

/-- Nothing is newly revoked also when the store raises. -/
def announce (s : GossipState ι F) (i : ι) (record : Value F) (w : Write) : GossipState ι F :=
  if ((s.policy i).apply M.C (s.file i) record w).newly = ∅ then applyAt M s i record w
  else broadcast M (applyAt M s i record w) i record

def on_frame (s : GossipState ι F) (i : ι) (obj : Value F) (w : Write) : GossipState ι F :=
  if textField obj "t" ≠ some REVOCATION_GOSSIP then s
  else
    match field obj "record" with
    | none => s
    | some record => if record.asObj = none then s else announce M s i record w

def GossipState.step (s : GossipState ι F) : GossipEvent ι F → GossipState ι F
  | .announce i record w => announce M s i record w
  | .deliver k w =>
      match s.inflight[k]? with
      | none => s
      | some m => on_frame M { s with inflight := s.inflight.eraseIdx k } m.1 m.2 w
  | .frame i obj w => on_frame M s i obj w
  | .apply i record w => applyAt M s i record w
  | .refresh i objs =>
      { s with
        policy := Function.update s.policy i ((s.policy i).refresh M.C (s.file i) objs).1 }

def runTo (s : GossipState ι F) (events : Nat → GossipEvent ι F) : Nat → GossipState ι F
  | 0 => s
  | n + 1 => (runTo s events n).step M (events n)

/-! ## What is to be shown -/

/-- Whatever is in flight arrives. -/
def Fair (s : GossipState ι F) (events : Nat → GossipEvent ι F) : Prop :=
  ∀ n, ∀ m ∈ (runTo M s events n).inflight, ∃ n' ≥ n, ∃ k w,
    events n' = .deliver k w ∧ (runTo M s events n').inflight[k]? = some m

/-- Everyone hears from `i`, by way of the peers. -/
def Mesh.Connected (i : ι) : Prop := ∀ j, Relation.ReflTransGen (fun i k => k ∈ M.peers i) i j

variable (id : String) (dids : Finset String)

/-- The object verifies as the record with this id, which revokes these. -/
def Carries (obj : Value F) : Prop :=
  ∃ record, verify_revocation M.C M.masters [] obj = some record ∧ record.record_id = id ∧
    record.revoked = dids

/-- The node has the DIDs revoked and the record passed on to all its peers. -/
structure Done (s : GossipState ι F) (i : ι) : Prop where
  revoked : dids ⊆ (s.policy i).revoked
  passed : ∀ k ∈ M.peers i, ∃ obj, Carries M id dids obj ∧ (i, k, frameOf obj) ∈ s.sent

/-- In the end every node is done. -/
def Covers (s : GossipState ι F) (events : Nat → GossipEvent ι F) : Prop :=
  ∀ j, ∃ n, ∀ n' ≥ n, Done M id dids (runTo M s events n') j

/-- The node is done before, or the record is not among its own; and, if it has
peers, something in it is new to it and the write does not raise. -/
def Ready (s : GossipState ι F) (i : ι) (w : Write) : Prop :=
  Done M id dids s i ∨ id ∉ (s.policy i).records ∧ (M.peers i = [] ∨
    ¬ dids ⊆ (s.policy i).revoked ∧ ((s.policy i).stored = true → w = .done))

/-- Where the record is announced and where it arrives, the node is ready. -/
def Meets (s : GossipState ι F) : GossipEvent ι F → Prop
  | .announce i obj w => Carries M id dids obj → Ready M id dids s i w
  | .deliver k w => ∀ i obj, s.inflight[k]? = some (i, frameOf obj) → Carries M id dids obj →
      Ready M id dids s i w
  | _ => True

end

/-! ## What a step keeps -/

section

variable {ι F : Type}

/-- The policies only grow, and what was sent is in flight when it is. -/
structure Grows (s s' : GossipState ι F) : Prop where
  masters : ∀ i, (s'.policy i).masters = (s.policy i).masters
  revoked : ∀ i, (s.policy i).revoked ⊆ (s'.policy i).revoked
  records : ∀ i id, id ∈ (s.policy i).records → id ∈ (s'.policy i).records
  sent : ∀ x ∈ s.sent, x ∈ s'.sent
  inflight : ∀ x ∈ s'.sent, x ∈ s.sent ∨ x.2 ∈ s'.inflight

theorem Grows.refl_of {s s' : GossipState ι F} (hpolicy : s'.policy = s.policy)
    (hsent : s'.sent = s.sent) : Grows s s' where
  masters i := by rw [hpolicy]
  revoked i := by rw [hpolicy]
  records i id h := by rwa [hpolicy]
  sent x h := by rwa [hsent]
  inflight x h := .inl (by rwa [← hsent])

/-- One node's policy grows. -/
theorem Grows.of_update [DecidableEq ι] {s s' : GossipState ι F} {i : ι} {p : TrustPolicy F}
    (hpolicy : s'.policy = Function.update s.policy i p)
    (hp : p.masters = (s.policy i).masters ∧ (s.policy i).revoked ⊆ p.revoked ∧
      ∀ id, id ∈ (s.policy i).records → id ∈ p.records)
    (hsent : s'.sent = s.sent) : Grows s s' := by
  have hcases : ∀ j, s'.policy j = s.policy j ∨ j = i ∧ s'.policy j = p := by
    intro j
    rw [hpolicy]
    rcases eq_or_ne j i with rfl | hne
    · exact .inr ⟨rfl, Function.update_self _ _ _⟩
    · exact .inl (Function.update_of_ne hne _ _)
  refine ⟨?_, ?_, ?_, fun x h => by rwa [hsent], fun x h => .inl (by rwa [← hsent])⟩
  · intro j
    rcases hcases j with h | ⟨rfl, h⟩
    · rw [h]
    · rw [h, hp.1]
  · intro j
    rcases hcases j with h | ⟨rfl, h⟩
    · rw [h]
    · rw [h]
      exact hp.2.1
  · intro j id hid
    rcases hcases j with h | ⟨rfl, h⟩
    · rwa [h]
    · rw [h]
      exact hp.2.2 id hid

variable {M : Mesh ι F} {s s' : GossipState ι F}

theorem Grows.broadcast (h : Grows s s') (i : ι) (record : Value F) :
    Grows s (broadcast M s' i record) where
  masters := h.masters
  revoked := h.revoked
  records := h.records
  sent x hx := List.mem_append_right _ (h.sent x hx)
  inflight x hx := by
    rcases List.mem_append.mp hx with hnew | hold
    · obtain ⟨k, hk, rfl⟩ := List.mem_map.mp hnew
      exact .inr (List.mem_append_right _ (List.mem_map_of_mem hk))
    · rcases h.inflight x hold with h | h
      · exact .inl h
      · exact .inr (List.mem_append_left _ h)

variable [PyFloat F]

/-- Merging only adds. -/
theorem merge_grows (C : Crypto) (p : TrustPolicy F) (file : Option ByteArray) (obj : Value F)
    (persist : Option Write) :
    (p.merge C file obj persist).policy.masters = p.masters ∧
      p.revoked ⊆ (p.merge C file obj persist).policy.revoked ∧
      ∀ id, id ∈ p.records → id ∈ (p.merge C file obj persist).policy.records := by
  by_cases h : ∀ masters record, p.masters = some masters →
      verify_revocation C masters [] obj = some record → record.record_id ∈ p.records
  · rw [merge_old h]
    exact ⟨rfl, Finset.Subset.refl _, fun _ hid => hid⟩
  · push Not at h
    obtain ⟨masters, record, hmasters, hverify, hnew⟩ := h
    obtain ⟨hrecords, hrevoked, hmasters', -⟩ := merge_new file hmasters hverify hnew persist
    refine ⟨hmasters', ?_, ?_⟩
    · rw [hrevoked]
      exact Finset.subset_union_left
    · intro id hid
      rw [hrecords]
      exact StrMap.mem_insert.mpr (.inr hid)

theorem refresh_grows (C : Crypto) (p : TrustPolicy F) (file : Option ByteArray)
    (objs : List (Value F)) :
    (p.refresh C file objs).1.masters = p.masters ∧
      p.revoked ⊆ (p.refresh C file objs).1.revoked ∧
      ∀ id, id ∈ p.records → id ∈ (p.refresh C file objs).1.records := by
  rw [TrustPolicy.refresh]
  generalize (∅ : Finset String) = newly
  induction objs generalizing p newly with
  | nil => exact ⟨rfl, Finset.Subset.refl _, fun _ hid => hid⟩
  | cons obj objs ih =>
      rw [List.foldl_cons]
      obtain ⟨hmasters, hrevoked, hrecords⟩ := merge_grows C p file obj none
      obtain ⟨hmasters', hrevoked', hrecords'⟩ := ih (p.merge C file obj none).policy
        (newly ∪ (p.merge C file obj none).newly)
      exact ⟨hmasters'.trans hmasters, hrevoked.trans hrevoked',
        fun id hid => hrecords' id (hrecords id hid)⟩

variable [DecidableEq ι]

theorem grows_applyAt (i : ι) (record : Value F) (w : Write) :
    Grows s (applyAt M s i record w) :=
  Grows.of_update rfl (merge_grows M.C (s.policy i) (s.file i) record (some w)) rfl

theorem grows_announce (i : ι) (record : Value F) (w : Write) :
    Grows s (announce M s i record w) := by
  rw [announce]
  split_ifs
  · exact grows_applyAt i record w
  · exact (grows_applyAt i record w).broadcast i record

theorem grows_on_frame (i : ι) (obj : Value F) (w : Write) : Grows s (on_frame M s i obj w) := by
  rw [on_frame]
  split_ifs
  · exact Grows.refl_of rfl rfl
  · split
    · exact Grows.refl_of rfl rfl
    · split_ifs
      · exact Grows.refl_of rfl rfl
      · exact grows_announce i _ w

theorem grows_step (ev : GossipEvent ι F) : Grows s (s.step M ev) := by
  cases ev with
  | announce i record w => exact grows_announce i record w
  | deliver k w =>
      rw [GossipState.step]
      split
      · exact Grows.refl_of rfl rfl
      · next m _ =>
          obtain ⟨hmasters, hrevoked, hrecords, hsent, hinflight⟩ :=
            grows_on_frame (M := M) (s := { s with inflight := s.inflight.eraseIdx k }) m.1 m.2 w
          exact ⟨hmasters, hrevoked, hrecords, hsent, hinflight⟩
  | frame i obj w => exact grows_on_frame i obj w
  | apply i record w => exact grows_applyAt i record w
  | refresh i objs =>
      exact Grows.of_update rfl (refresh_grows M.C (s.policy i) (s.file i) objs) rfl

/-! ## A node that is told -/

theorem policy_announce_ne {i j : ι} {obj : Value F} {w : Write} (h : j ≠ i) :
    (announce M s i obj w).policy j = s.policy j := by
  rw [announce]
  split_ifs
  · exact Function.update_of_ne h _ _
  · exact Function.update_of_ne h _ _

omit [DecidableEq ι] in
theorem asObj_of_verify {C : Crypto} {masters : MasterSet} {obj : Value F}
    {record : RevocationRecord F} (h : verify_revocation C masters [] obj = some record) :
    obj.asObj ≠ none := by
  intro hnone
  rw [verify_revocation, if_pos] at h
  · cases h
  · rw [textField, field, hnone]
    exact Option.some_ne_none _ |>.symm

omit [DecidableEq ι] in
theorem apply_newly {C : Crypto} {p : TrustPolicy F} {file : Option ByteArray} {obj : Value F}
    {masters : MasterSet} {record : RevocationRecord F} {w : Write}
    (hmasters : p.masters = some masters)
    (hverify : verify_revocation C masters [] obj = some record)
    (hnew : record.record_id ∉ p.records) (hw : p.stored = true → w = .done) :
    (p.apply C file obj w).newly = record.revoked \ p.revoked := by
  cases hstored : p.stored with
  | true =>
      rw [hw hstored]
      exact apply_done_newly hmasters hverify hnew
  | false =>
      rw [TrustPolicy.apply]
      unfold TrustPolicy.merge
      rw [hmasters]
      dsimp only
      rw [hverify]
      dsimp only
      rw [if_neg (by simpa using hnew), hstored]
      cases w with
      | done => rfl
      | failed n => rfl

variable {id : String} {dids : Finset String} {i : ι} {obj : Value F} {w : Write}

omit [DecidableEq ι] in
theorem Done.grows (h : Done M id dids s i) (hg : Grows s s') : Done M id dids s' i where
  revoked := h.revoked.trans (hg.revoked i)
  passed k hk := by
    obtain ⟨obj, hcarries, hsent⟩ := h.passed k hk
    exact ⟨obj, hcarries, hg.sent _ hsent⟩

omit [DecidableEq ι] in
theorem Ready.of_same (h : Ready M id dids s i w) (hpolicy : s'.policy = s.policy)
    (hsent : s'.sent = s.sent) : Ready M id dids s' i w := by
  rcases h with hdone | hnew
  · exact .inl (hdone.grows (Grows.refl_of hpolicy hsent))
  · refine .inr ?_
    rwa [hpolicy]

/-- A node that is ready and is told of the record is done. -/
theorem done_announce (hmasters : (s.policy i).masters = some M.masters)
    (hcarries : Carries M id dids obj) (hready : Ready M id dids s i w) :
    Done M id dids (announce M s i obj w) i := by
  rcases hready with hdone | ⟨hnew, hpeers⟩
  · exact hdone.grows (grows_announce i obj w)
  have hrecord := hcarries
  obtain ⟨record, hverify, rfl, rfl⟩ := hrecord
  have hrevoked : record.revoked ⊆ ((applyAt M s i obj w).policy i).revoked := by
    rw [applyAt]
    dsimp only
    rw [Function.update_self, TrustPolicy.apply, (merge_new _ hmasters hverify hnew _).2.1]
    exact Finset.subset_union_right
  rw [announce]
  rcases hpeers with hnone | ⟨hsome, hw⟩
  · have hpassed : ∀ k ∈ M.peers i, False := by
      rw [hnone]
      exact fun _ h => by cases h
    split_ifs
    · exact ⟨hrevoked, fun k hk => (hpassed k hk).elim⟩
    · exact ⟨hrevoked, fun k hk => (hpassed k hk).elim⟩
  · rw [apply_newly hmasters hverify hnew hw, if_neg]
    · refine ⟨hrevoked, fun k hk => ⟨obj, hcarries, ?_⟩⟩
      exact List.mem_append_left _ (List.mem_map_of_mem hk)
    · rw [Finset.sdiff_eq_empty_iff_subset]
      exact hsome

/-- A frame with a record that verifies is as good as an announcement. -/
theorem on_frame_eq (hcarries : Carries M id dids obj) :
    on_frame M s i (frameOf obj) w = announce M s i obj w := by
  have hobj : obj.asObj ≠ none := by
    obtain ⟨record, hverify, -⟩ := hcarries
    exact asObj_of_verify hverify
  have htype : textField (frameOf obj) "t" = some REVOCATION_GOSSIP := by
    simp [textField, field, frameOf, Value.asObj, objGet, Value.asStr]
  have hrecord : field (frameOf obj) "record" = some obj := by
    simp [field, frameOf, Value.asObj, objGet]
  rw [on_frame, if_neg (by simpa using htype), hrecord]
  dsimp only
  rw [if_neg hobj]

/-! ## Runs -/

variable {events : Nat → GossipEvent ι F}

theorem masters_runTo (hmasters : (s.policy i).masters = some M.masters) (n : Nat) :
    ((runTo M s events n).policy i).masters = some M.masters := by
  induction n with
  | zero => exact hmasters
  | succ n ih => exact ((grows_step (events n)).masters i).trans ih

theorem Done.runTo {n n' : Nat} (h : Done M id dids (runTo M s events n) i) (hle : n ≤ n') :
    Done M id dids (runTo M s events n') i := by
  induction n', hle using Nat.le_induction with
  | base => exact h
  | succ n' _ ih => exact ih.grows (grows_step (events n'))

/-- What was sent was in flight once. -/
theorem inflight_of_sent (hsent : s.sent = []) (n : Nat) :
    ∀ x ∈ (runTo M s events n).sent, ∃ n' ≤ n, x.2 ∈ (runTo M s events n').inflight := by
  induction n with
  | zero =>
      intro x hx
      rw [runTo, hsent] at hx
      cases hx
  | succ n ih =>
      intro x hx
      rcases (grows_step (events n)).inflight x hx with hold | hnew
      · obtain ⟨n', hn', hin⟩ := ih x hold
        exact ⟨n', hn'.trans n.le_succ, hin⟩
      · exact ⟨n + 1, le_rfl, hnew⟩

/-- From a node that is done each of its peers gets done. -/
theorem done_peer (hmasters : ∀ i, (s.policy i).masters = some M.masters) (hsent : s.sent = [])
    (hfair : Fair M s events)
    (hmeets : ∀ n, Meets M id dids (runTo M s events n) (events n)) {n : Nat} {k : ι}
    (hdone : Done M id dids (runTo M s events n) i) (hk : k ∈ M.peers i) :
    ∃ n', Done M id dids (runTo M s events n') k := by
  obtain ⟨obj, hcarries, hpassed⟩ := hdone.passed k hk
  obtain ⟨n₁, -, hin⟩ := inflight_of_sent hsent n _ hpassed
  obtain ⟨n₂, -, p, w, hev, hat⟩ := hfair n₁ _ hin
  have hready := hmeets n₂
  rw [hev] at hready
  refine ⟨n₂ + 1, ?_⟩
  rw [runTo, hev, GossipState.step, hat]
  dsimp only
  rw [on_frame_eq hcarries]
  refine done_announce ?_ hcarries ?_
  · exact masters_runTo (hmasters k) n₂
  · exact (hready k obj hat hcarries).of_same rfl rfl

/-- If every node is ready when it is told, then in a fair run the record gets
to all of a connected mesh. -/
theorem covers (M : Mesh ι F) (s : GossipState ι F) (events : Nat → GossipEvent ι F)
    (id : String) (dids : Finset String) (i : ι) (n : Nat) (obj : Value F) (w : Write)
    (hmasters : ∀ i, (s.policy i).masters = some M.masters) (hsent : s.sent = [])
    (hconnected : M.Connected i) (hfair : Fair M s events)
    (hannounced : events n = .announce i obj w) (hcarries : Carries M id dids obj)
    (hmeets : ∀ n, Meets M id dids (runTo M s events n) (events n)) :
    Covers M id dids s events := by
  have hsource : Done M id dids (runTo M s events (n + 1)) i := by
    have hready := hmeets n
    rw [hannounced] at hready
    rw [runTo, hannounced]
    refine done_announce ?_ hcarries (hready hcarries)
    exact masters_runTo (hmasters i) n
  intro j
  have hsome : ∃ n', Done M id dids (runTo M s events n') j := by
    induction hconnected j with
    | refl => exact ⟨n + 1, hsource⟩
    | tail _ hpeer ih =>
        obtain ⟨n', hdone⟩ := ih
        exact done_peer hmasters hsent hfair hmeets hdone hpeer
  obtain ⟨n', hdone⟩ := hsome
  exact ⟨n', fun n'' hn'' => hdone.runTo hn''⟩

/-! ## A node that had the record before -/

/-- What a node that is told sends. -/
theorem sent_announce {x : ι × ι × Value F} (hx : x ∈ (announce M s i obj w).sent) :
    x ∈ s.sent ∨ x.1 = i ∧ x.2.2 = frameOf obj ∧
      ((s.policy i).apply M.C (s.file i) obj w).newly ≠ ∅ := by
  rw [announce] at hx
  split_ifs at hx with hnewly
  · exact .inl hx
  · rcases List.mem_append.mp hx with hnew | hold
    · obtain ⟨k, -, rfl⟩ := List.mem_map.mp hnew
      exact .inr ⟨rfl, rfl, hnewly⟩
    · exact .inl hold

theorem sent_on_frame {x : ι × ι × Value F} {f : Value F} (hx : x ∈ (on_frame M s i f w).sent) :
    x ∈ s.sent ∨ ∃ obj, x.1 = i ∧ x.2.2 = frameOf obj ∧
      ((s.policy i).apply M.C (s.file i) obj w).newly ≠ ∅ := by
  rw [on_frame] at hx
  split_ifs at hx
  · exact .inl hx
  · split at hx
    · exact .inl hx
    · next record _ =>
        split_ifs at hx
        · exact .inl hx
        · exact (sent_announce hx).imp_right (fun h => ⟨record, h⟩)

/-- What is sent in a step is a record that is new where it comes from. -/
theorem sent_step {ev : GossipEvent ι F} {x : ι × ι × Value F} (hx : x ∈ (s.step M ev).sent) :
    x ∈ s.sent ∨ ∃ obj w, x.2.2 = frameOf obj ∧
      ((s.policy x.1).apply M.C (s.file x.1) obj w).newly ≠ ∅ := by
  cases ev with
  | announce i record w =>
      rcases sent_announce hx with hold | ⟨rfl, hframe, hnewly⟩
      · exact .inl hold
      · exact .inr ⟨record, w, hframe, hnewly⟩
  | deliver k w =>
      rw [GossipState.step] at hx
      split at hx
      · exact .inl hx
      · rcases sent_on_frame hx with hold | ⟨obj, hi, hframe, hnewly⟩
        · exact .inl hold
        · rw [← hi] at hnewly
          exact .inr ⟨obj, w, hframe, hnewly⟩
  | frame i f w =>
      rcases sent_on_frame hx with hold | ⟨obj, rfl, hframe, hnewly⟩
      · exact .inl hold
      · exact .inr ⟨obj, w, hframe, hnewly⟩
  | apply i record w => exact .inl hx
  | refresh i objs => exact .inl hx

/-- The node has the record, and has sent it to nobody. -/
structure Silent (M : Mesh ι F) (id : String) (dids : Finset String) (s : GossipState ι F)
    (i : ι) : Prop where
  masters : (s.policy i).masters = some M.masters
  known : id ∈ (s.policy i).records
  unsent : ∀ obj k, Carries M id dids obj → (i, k, frameOf obj) ∉ s.sent

theorem Silent.step (h : Silent M id dids s i) (ev : GossipEvent ι F) :
    Silent M id dids (s.step M ev) i where
  masters := ((grows_step ev).masters i).trans h.masters
  known := (grows_step ev).records i id h.known
  unsent obj k hcarries hsent := by
    rcases sent_step hsent with hold | ⟨obj', w, hframe, hnewly⟩
    · exact h.unsent obj k hcarries hold
    · obtain ⟨record, hverify, hid, -⟩ := hcarries
      have hobj : obj = obj' := by simpa [frameOf] using hframe
      rw [← hobj, TrustPolicy.apply, merge_old] at hnewly
      · exact hnewly rfl
      · intro masters record' hmasters hverify'
        rw [h.masters] at hmasters
        obtain rfl := Option.some.inj hmasters
        obtain rfl := Option.some.inj (hverify.symm.trans hverify')
        rw [hid]
        exact h.known

/-- It never passes it on. -/
theorem never_done {n n' : Nat} (h : Silent M id dids (runTo M s events n) i) (hle : n ≤ n')
    (hpeers : M.peers i ≠ []) : ¬ Done M id dids (runTo M s events n') i := by
  have hsilent : Silent M id dids (runTo M s events n') i := by
    induction n', hle using Nat.le_induction with
    | base => exact h
    | succ n' _ ih => exact ih.step (events n')
  intro hdone
  obtain ⟨k, hk⟩ := List.exists_mem_of_ne_nil _ hpeers
  obtain ⟨obj, hcarries, hsent⟩ := hdone.passed k hk
  exact hsilent.unsent obj k hcarries hsent

/-! ## First in, first out -/

theorem inflight_announce : ∃ more, (announce M s i obj w).inflight = s.inflight ++ more ∧
    ∀ m ∈ more, m.2 = frameOf obj := by
  rw [announce]
  split_ifs
  · exact ⟨[], (List.append_nil _).symm, fun _ h => nomatch h⟩
  · refine ⟨(M.peers i).map (fun k => (k, frameOf obj)), rfl, ?_⟩
    intro m hm
    obtain ⟨k, -, rfl⟩ := List.mem_map.mp hm
    rfl

theorem inflight_on_frame {f : Value F} : ∃ more, (on_frame M s i f w).inflight =
    s.inflight ++ more ∧ ∀ m ∈ more, ∃ obj, field f "record" = some obj ∧ m.2 = frameOf obj := by
  have hnone : ∃ more, s.inflight = s.inflight ++ more ∧
      ∀ m ∈ more, ∃ obj, field f "record" = some obj ∧ m.2 = frameOf obj :=
    ⟨[], (List.append_nil _).symm, fun _ h => nomatch h⟩
  rw [on_frame]
  split_ifs
  · exact hnone
  · cases hrecord : field f "record" with
    | none =>
        rw [hrecord] at hnone
        exact hnone
    | some obj =>
        dsimp only
        split_ifs
        · rw [hrecord] at hnone
          exact hnone
        · obtain ⟨more, hmore, hframe⟩ : ∃ more, (announce M s i obj w).inflight = _ ∧ _ :=
            inflight_announce
          exact ⟨more, hmore, fun m hm => ⟨obj, rfl, hframe m hm⟩⟩

/-- The first in flight is delivered. -/
theorem inflight_deliver {m : ι × Value F} {rest : List (ι × Value F)}
    (h : s.inflight = m :: rest) : ∃ more, (s.step M (.deliver 0 w)).inflight = rest ++ more ∧
      ∀ m' ∈ more, ∃ obj, field m.2 "record" = some obj ∧ m'.2 = frameOf obj := by
  rw [GossipState.step, h]
  exact inflight_on_frame

/-- Delivering what is in flight in order, from when there is something, is
fair. -/
theorem fair_fifo {n : Nat} (hempty : ∀ n' < n, (runTo M s events n').inflight = [])
    (hfifo : ∀ n' ≥ n, ∃ w, events n' = .deliver 0 w) : Fair M s events := by
  have hplace : ∀ (p n' : Nat) m, n ≤ n' → (runTo M s events n').inflight[p]? = some m →
      ∃ n'' ≥ n', ∃ k w, events n'' = .deliver k w ∧
        (runTo M s events n'').inflight[k]? = some m := by
    intro p
    induction p with
    | zero =>
        intro n' m hn' hat
        obtain ⟨w, hev⟩ := hfifo n' hn'
        exact ⟨n', le_rfl, 0, w, hev, hat⟩
    | succ p ih =>
        intro n' m hn' hat
        obtain ⟨w, hev⟩ := hfifo n' hn'
        cases hin : (runTo M s events n').inflight with
        | nil =>
            rw [hin] at hat
            cases hat
        | cons first rest =>
            rw [hin, List.getElem?_cons_succ] at hat
            obtain ⟨more, hmore, -⟩ := inflight_deliver (M := M) (w := w) hin
            obtain ⟨n'', hn'', hrest⟩ := ih (n' + 1) m (hn'.trans n'.le_succ) (by
              rw [runTo, hev, hmore]
              exact List.getElem?_append_left (List.getElem?_eq_some_iff.mp hat).1 |>.trans hat)
            exact ⟨n'', n'.le_succ.trans hn'', hrest⟩
  intro n' m hm
  obtain ⟨p, hat⟩ := List.mem_iff_getElem?.mp hm
  rcases lt_or_ge n' n with hlt | hge
  · rw [hempty n' hlt] at hm
    cases hm
  · exact hplace p n' m hge hat

end


/-! ## Three nodes in a line -/

theorem mem_peers {ι F : Type} {M : Mesh ι F} {i k : ι} {view : MembershipView F} {d : String}
    {rec : PeerRecord F} {e : Endpoint} (hview : M.membership i = some view)
    (hrec : view[d]? = some rec) (hne : d ≠ M.did i)
    (hbest : EndpointSet.best rec.endpoints = some e) (hat : M.locate e.key = some k) :
    k ∈ M.peers i := by
  rw [Mesh.peers, hview]
  refine List.mem_filterMap.mpr ⟨e.key, List.mem_filterMap.mpr ⟨d, ?_, ?_⟩, hat⟩
  · exact Std.ExtTreeMap.mem_keys.mpr (Std.ExtTreeMap.mem_iff_isSome_getElem?.mpr (by simp [hrec]))
  · rw [if_neg hne, hrec, Option.bind_some, hbest]
    rfl

namespace Line

def did : Fin 3 → String
  | 0 => "did:a"
  | 1 => "did:b"
  | 2 => "did:c"

/-- A node's own record: it is at the port after its number. -/
def peerRecord (i : Fin 3) : PeerRecord (Option Int) :=
  ⟨did i, some 0, [⟨.pub, "h", i + 1, by omega⟩], .null, [], []⟩

/-- Each node knows the nodes next to it. -/
def view : Fin 3 → MembershipView (Option Int)
  | 0 => (∅ : StrMap _).insert (did 1) (peerRecord 1)
  | 1 => ((∅ : StrMap _).insert (did 0) (peerRecord 0)).insert (did 2) (peerRecord 2)
  | 2 => (∅ : StrMap _).insert (did 1) (peerRecord 1)

def mesh : Mesh (Fin 3) (Option Int) where
  C := .lenient
  masters := Leaver.masters
  did := did
  membership i := some (view i)
  locate a := if a = ("h", 1) then some 0 else if a = ("h", 2) then some 1
    else if a = ("h", 3) then some 2 else none

/-- Nobody knows of any revocation. -/
def start : GossipState (Fin 3) (Option Int) where
  policy _ := { allowlist := fun _ => true, masters := some Leaver.masters, stored := false }
  file _ := none

theorem mem_peers_line {i k : Fin 3} (hrec : (view i)[did k]? = some (peerRecord k))
    (hne : did k ≠ did i) : k ∈ mesh.peers i := by
  refine mem_peers (M := mesh) rfl hrec hne (e := ⟨.pub, "h", k + 1, by omega⟩) ?_ ?_
  · rw [peerRecord, EndpointSet.best, EndpointSet.all, List.mergeSort_singleton]
    rfl
  · fin_cases k <;> rfl

theorem right_of_left : (1 : Fin 3) ∈ mesh.peers 0 :=
  mem_peers_line (by rw [view, StrMap.get_insert, if_pos rfl]) (by decide)

theorem left_of_middle : (0 : Fin 3) ∈ mesh.peers 1 :=
  mem_peers_line (by
    rw [view, StrMap.get_insert, if_neg (by decide), StrMap.get_insert, if_pos rfl]) (by decide)

theorem right_of_middle : (2 : Fin 3) ∈ mesh.peers 1 :=
  mem_peers_line (by rw [view, StrMap.get_insert, if_pos rfl]) (by decide)

theorem connected : mesh.Connected 0 := by
  have hmiddle := Relation.ReflTransGen.single (r := fun i k => k ∈ mesh.peers i) right_of_left
  intro j
  fin_cases j
  · exact Relation.ReflTransGen.refl
  · exact hmiddle
  · exact hmiddle.tail right_of_middle

def recordId : String := digest .lenient Leaver.body
def dids : Finset String := ["did:leaver"].toFinset

theorem carries : Carries mesh recordId dids Leaver.record := ⟨_, Leaver.verify_record, rfl, rfl⟩

/-- Told of nothing but this record, each node knows nothing or is done. -/
structure Spreads (s : GossipState (Fin 3) (Option Int)) : Prop where
  masters : ∀ i, (s.policy i).masters = some mesh.masters
  nodes : ∀ i, s.policy i = start.policy i ∨ Done mesh recordId dids s i
  frames : ∀ m ∈ s.inflight, m.2 = frameOf Leaver.record

variable {s s' : GossipState (Fin 3) (Option Int)}

theorem Spreads.ready (h : Spreads s) (i : Fin 3) (w : Write) : Ready mesh recordId dids s i w := by
  rcases h.nodes i with hfresh | hdone
  · refine .inr ?_
    rw [hfresh]
    refine ⟨Std.ExtTreeMap.not_mem_empty, .inr ⟨?_, fun hstored => nomatch hstored⟩⟩
    intro hsub
    exact Finset.notMem_empty _ (hsub (by simp [dids] : "did:leaver" ∈ dids))
  · exact .inl hdone

/-- One node gets done, the others are as they were. -/
theorem Spreads.told (h : Spreads s) {i : Fin 3} (hdone : Done mesh recordId dids s' i)
    (hgrows : Grows s s') (hothers : ∀ j, j ≠ i → s'.policy j = s.policy j)
    (hframes : ∀ m ∈ s'.inflight, m.2 = frameOf Leaver.record) : Spreads s' := by
  refine ⟨fun j => (hgrows.masters j).trans (h.masters j), fun j => ?_, hframes⟩
  rcases eq_or_ne j i with rfl | hne
  · exact .inr hdone
  · rw [hothers j hne]
    exact (h.nodes j).imp_right (fun hd => hd.grows hgrows)

theorem Spreads.announce (h : Spreads s) (i : Fin 3) (w : Write) :
    Spreads (announce mesh s i Leaver.record w) := by
  refine h.told (done_announce (h.masters i) carries (h.ready i w)) (grows_announce i _ w)
    (fun j hne => policy_announce_ne hne) ?_
  obtain ⟨more, hmore, hframe⟩ : ∃ more, (Transport.announce mesh s i Leaver.record w).inflight =
      s.inflight ++ more ∧ _ := inflight_announce
  intro m hm
  rw [hmore] at hm
  rcases List.mem_append.mp hm with hold | hnew
  · exact h.frames m hold
  · exact hframe m hnew

theorem Spreads.deliver (h : Spreads s) (w : Write) : Spreads (s.step mesh (.deliver 0 w)) := by
  cases hin : s.inflight with
  | nil =>
      rw [GossipState.step, hin]
      exact h
  | cons m rest =>
      obtain ⟨i, f⟩ := m
      have hframes := h.frames
      rw [hin] at hframes
      obtain rfl : f = frameOf Leaver.record := hframes (i, f) List.mem_cons_self
      have hrest : Spreads { s with inflight := rest } :=
        ⟨h.masters, fun j => (h.nodes j).imp_right (fun hd => hd.grows (Grows.refl_of rfl rfl)),
          fun m hm => hframes m (List.mem_cons_of_mem _ hm)⟩
      rw [GossipState.step, hin]
      change Spreads (on_frame mesh { s with inflight := rest } i (frameOf Leaver.record) w)
      rw [on_frame_eq carries]
      exact hrest.announce i w

/-- The record is announced at one end, and the frames arrive in order. -/
def spreading : Nat → GossipEvent (Fin 3) (Option Int)
  | 0 => .announce 0 Leaver.record .done
  | _ + 1 => .deliver 0 .done

theorem spreads_spreading (n : Nat) : Spreads (runTo mesh start spreading n) := by
  induction n with
  | zero => exact ⟨fun _ => rfl, fun _ => .inl rfl, fun _ h => nomatch h⟩
  | succ n ih =>
      cases n with
      | zero => exact ih.announce 0 .done
      | succ n => exact ih.deliver .done

/-- The record gets from one end to the other. -/
theorem covers_spreading : Covers mesh recordId dids start spreading := by
  refine covers mesh start spreading recordId dids 0 0 Leaver.record .done (fun _ => rfl) rfl connected
    ?_ rfl carries ?_
  · refine fair_fifo (n := 1) ?_ ?_
    · intro n hn
      obtain rfl : n = 0 := by omega
      rfl
    · intro n hn
      obtain ⟨n, rfl⟩ := Nat.exists_eq_add_of_le' hn
      exact ⟨.done, rfl⟩
  · intro n
    have hready := (spreads_spreading n).ready
    cases n with
    | zero => exact fun _ => hready 0 .done
    | succ n => exact fun i _ _ _ => hready i .done

/-- The node in the middle has the record from its store. -/
def knowing : Nat → GossipEvent (Fin 3) (Option Int)
  | 0 => .refresh 1 [Leaver.record]
  | 1 => .announce 0 Leaver.record .done
  | _ + 2 => .deliver 0 .done

theorem silent_knowing : Silent mesh recordId dids (runTo mesh start knowing 1) 1 := by
  have hverify := Leaver.verify_record
  have hnew := merge_new (C := .lenient) (p := start.policy 1) none rfl hverify
    Std.ExtTreeMap.not_mem_empty none
  have hpolicy : (runTo mesh start knowing 1).policy 1 =
      ((start.policy 1).merge .lenient none Leaver.record none).policy := rfl
  refine ⟨?_, ?_, fun _ _ _ h => nomatch h⟩
  · rw [hpolicy, hnew.2.2.1]
    rfl
  · rw [hpolicy, hnew.1]
    exact StrMap.mem_insert.mpr (.inl rfl)

end Line

/-- The node in the middle had the record from its own store: it does not pass
it on, and the other end never hears of it. -/
theorem not_covers_knowing : ¬ ∀ (events : Nat → GossipEvent (Fin 3) (Option Int)) (n : Nat),
    Line.mesh.Connected 0 → Fair Line.mesh Line.start events →
      events n = .announce 0 Leaver.record .done →
        Carries Line.mesh Line.recordId Line.dids Leaver.record →
          Covers Line.mesh Line.recordId Line.dids Line.start events := by
  intro h
  have hfair : Fair Line.mesh Line.start Line.knowing := by
    refine fair_fifo (n := 2) ?_ ?_
    · intro n hn
      rcases n with - | - | n
      · rfl
      · rfl
      · omega
    · intro n hn
      obtain ⟨n, rfl⟩ := Nat.exists_eq_add_of_le' hn
      exact ⟨.done, rfl⟩
  obtain ⟨n, hdone⟩ := h Line.knowing 1 Line.connected hfair rfl Line.carries 1
  refine never_done Line.silent_knowing (le_max_left 1 n) ?_ (hdone _ (le_max_right 1 n))
  exact List.ne_nil_of_mem Line.left_of_middle

end Secdogie.Transport
