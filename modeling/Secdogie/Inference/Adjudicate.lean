/-
# `Secdogie.Inference.Adjudicate` — what an accepted verdict says

The nodes that a verdict names are distinct, there are as many as were needed,
and each gave an answer that was inspected and found good: signed by it, and
for this request (`adjudicate_accepted`).
-/
import Secdogie.Identity.Verified
import Secdogie.Inference.Lockdown

namespace Secdogie.Inference

open Secdogie.Graph Secdogie.Identity Secdogie.Grouping

/-! ## Groups of answers -/

section

variable {F : Type} {agree : String → String → Except Raised Bool}

/-- What every round of a fold keeps, of what is still to come and what it came
to so far, holds of its result. -/
theorem kept_by_foldlM {σ α : Type} {round : σ → α → Except Raised σ} {K : List α → σ → Prop}
    (hround : ∀ {a rest s s'}, round s a = .ok s' → K (a :: rest) s → K rest s') {rest : List α} {s s' : σ}
    (h : rest.foldlM round s = .ok s') (hs : K rest s) : K [] s' := by
  induction rest generalizing s with
  | nil =>
      obtain rfl : s = s' := Except.ok.inj h
      exact hs
  | cons a rest ih =>
      rw [List.foldlM_cons] at h
      obtain ⟨s₁, hfirst, hlater⟩ := bind_ok.mp h
      exact ih hlater (hround hfirst hs)

/-- What is grouped is what was there before and the answer. -/
theorem placeAnswer_perm {r : String × Value F} :
    ∀ {gs gs' : List (Grouping.Group (String × Value F))}, placeAnswer agree r gs = .ok gs' →
      (gs'.flatMap Grouping.Group.members).Perm (r :: gs.flatMap Grouping.Group.members)
  | [], gs', h => by
      obtain rfl := Except.ok.inj h
      exact List.Perm.refl _
  | g :: gs, gs', h => by
      rw [placeAnswer] at h
      obtain ⟨agrees, -, h⟩ := bind_ok.mp h
      cases agrees with
      | true =>
          obtain rfl : (g.1, g.2 ++ [r]) :: gs = gs' := Except.ok.inj h
          rw [List.flatMap_cons, List.flatMap_cons]
          have hjoin : (Grouping.Group.members (g.1, g.2 ++ [r])).Perm (r :: g.members) :=
            ((List.perm_append_singleton r g.2).cons g.1).trans (List.Perm.swap r g.1 g.2)
          exact hjoin.append_right _
      | false =>
          obtain ⟨gs₁, hplace, h⟩ := bind_ok.mp h
          obtain rfl : g :: gs₁ = gs' := Except.ok.inj h
          rw [List.flatMap_cons, List.flatMap_cons]
          exact ((placeAnswer_perm hplace).append_left g.members).trans List.perm_middle

/-- The answers of a group are some of those that were grouped. -/
theorem subperm_of_groupAnswers {valid : List (String × Value F)}
    {gs : List (Grouping.Group (String × Value F))} (h : groupAnswers agree valid = .ok gs)
    {g : Grouping.Group (String × Value F)} (hg : g ∈ gs) : g.members.Subperm valid := by
  -- what is still to come and what is grouped already are, together, all of them
  have hperm : ([] ++ gs.flatMap Grouping.Group.members).Perm valid := by
    refine kept_by_foldlM (K := fun rest gs => (rest ++ gs.flatMap Grouping.Group.members).Perm valid)
      (fun {r rest gs₁ gs₂} hplace hrest => ?_) h ?_
    · exact (((placeAnswer_perm hplace).append_left rest).trans List.perm_middle).trans hrest
    · rw [List.flatMap_nil, List.append_nil]
  exact (List.sublist_flatten_of_mem (List.mem_map_of_mem hg)).subperm.trans hperm.subperm

/-- All the answers of a group agree with its first. -/
theorem placeAnswer_agrees {r : String × Value F} :
    ∀ {gs gs' : List (Grouping.Group (String × Value F))}, placeAnswer agree r gs = .ok gs' →
      (∀ g ∈ gs, ∀ a ∈ g.2, agree (outputOf g.1.2) (outputOf a.2) = .ok true) →
      ∀ g ∈ gs', ∀ a ∈ g.2, agree (outputOf g.1.2) (outputOf a.2) = .ok true
  | [], gs', h, _, g, hg, a, ha => by
      obtain rfl := Except.ok.inj h
      rw [List.mem_singleton.mp hg] at ha
      cases ha
  | g₀ :: gs, gs', h, hgs, g, hg, a, ha => by
      rw [placeAnswer] at h
      obtain ⟨agrees, hagrees, h⟩ := bind_ok.mp h
      cases agrees with
      | true =>
          obtain rfl : (g₀.1, g₀.2 ++ [r]) :: gs = gs' := Except.ok.inj h
          rcases List.mem_cons.mp hg with rfl | hg
          · rcases List.mem_append.mp ha with ha | ha
            · exact hgs g₀ List.mem_cons_self a ha
            · rw [List.mem_singleton.mp ha]
              exact hagrees
          · exact hgs g (List.mem_cons_of_mem _ hg) a ha
      | false =>
          obtain ⟨gs₁, hplace, h⟩ := bind_ok.mp h
          obtain rfl : g₀ :: gs₁ = gs' := Except.ok.inj h
          rcases List.mem_cons.mp hg with rfl | hg
          · exact hgs g List.mem_cons_self a ha
          · exact placeAnswer_agrees hplace (fun g hg => hgs g (List.mem_cons_of_mem _ hg)) g hg a ha

theorem groupAnswers_agree {valid : List (String × Value F)} {gs : List (Grouping.Group (String × Value F))}
    (h : groupAnswers agree valid = .ok gs) :
    ∀ g ∈ gs, ∀ a ∈ g.2, agree (outputOf g.1.2) (outputOf a.2) = .ok true :=
  kept_by_foldlM (fun hplace hgs => placeAnswer_agrees hplace hgs) h fun _ hg => by cases hg

end

/-! ## Good answers -/

section

variable {F : Type} [PyNumber F] {U : SafetyConfig F} {request decision response : Value F} {now : F}
  {advisory : Option (Value F)}

omit [PyNumber F] in
/-- What is signed as its field says, names a trusted signer there. -/
theorem signed_by_eq_none [FloatCodec F] {C : Crypto} {obj : Value F} {type field : String}
    {roots : String → Bool} (h : signed_by C obj type field roots = none) :
    ∃ signer, getStr obj field = some signer ∧ roots signer = true := by
  unfold signed_by at h
  split at h
  · exact nomatch h
  · split at h
    · next signer hverify =>
        split at h
        · exact nomatch h
        next hfield =>
        obtain ⟨-, s, -, rfl, htrust, -⟩ := signedAs_of_verifyPayload hverify
        exact ⟨s, not_not.mp hfield, htrust⟩
    · exact nomatch h
    · exact nomatch h

/-- The safety layer, with whatever answers it remembered, found this one good. -/
def Good (U : SafetyConfig F) (s : SafetyLayer F) (request : Value F) (now : F) (advisory : Option (Value F))
    (decision response : Value F) : Prop :=
  ∃ (s' : SafetyLayer F) (f : Finding F), s'.leases = s.leases ∧ s'.ledger = s.ledger ∧
    (s'.inspect U request decision response now advisory).1 = .ok f ∧ f.ok = true

/-- An inspection remembers answers, and nothing else. -/
theorem inspect_keeps (s : SafetyLayer F) (request decision response : Value F) (now : F)
    (advisory : Option (Value F)) :
    (s.inspect U request decision response now advisory).2.leases = s.leases ∧
      (s.inspect U request decision response now advisory).2.ledger = s.ledger := by
  rw [SafetyLayer.inspect]
  split
  · exact ⟨rfl, rfl⟩
  · exact ⟨rfl, rfl⟩
  · split
    · split_ifs
      · exact ⟨rfl, rfl⟩
      · exact ⟨rfl, rfl⟩
    · exact ⟨rfl, rfl⟩

/-- It is signed by a node of the mesh, and for this request. -/
theorem Good.signed {s : SafetyLayer F} (h : Good U s request now advisory decision response) :
    ∃ provider, getStr response "provider" = some provider ∧ U.trust.mesh provider = true ∧
      getStr response "request_hash" = some (digest U.C request) := by
  obtain ⟨s', f, -, -, hinspect, hok⟩ := h
  have hroute := inspectRoute_of_ok hinspect hok
  rw [inspectRoute] at hroute
  obtain ⟨u, -, hroute⟩ := bind_ok.mp hroute
  obtain ⟨p, -, hroute⟩ := bind_ok.mp hroute
  obtain ⟨u', -, hroute⟩ := bind_ok.mp hroute
  obtain ⟨u'', -, hroute⟩ := bind_ok.mp hroute
  obtain ⟨u₃, hresponse, -⟩ := bind_ok.mp hroute
  have hcheck : check_response U.C U.trust response (some request) (some decision) = .ok () := by
    unfold orFinding at hresponse
    split at hresponse
    · next heq => exact heq
    · cases hresponse
    · cases hresponse
  rw [check_response] at hcheck
  obtain ⟨u₄, hsigned, hcheck⟩ := bind_ok.mp hcheck
  obtain ⟨u₅, -, hcheck⟩ := bind_ok.mp hcheck
  obtain ⟨u₆, hanswers, -⟩ := bind_ok.mp hcheck
  have hhash := ensure_ok.mp hanswers
  rw [signedBy] at hsigned
  split at hsigned
  · next hsigner =>
      obtain ⟨provider, hprovider, htrust⟩ := signed_by_eq_none hsigner
      exact ⟨provider, hprovider, htrust, hhash⟩
  · cases hsigned

/-! ## Accepted verdicts -/

/-- The valid answers so far are good, each from another node. -/
structure Tally.Sound (U : SafetyConfig F) (s : SafetyLayer F) (request : Value F) (now : F)
    (advisory : Option (Value F)) (items : List (Value F × Value F)) (t : Tally F) : Prop where
  nodup : (t.valid.map Prod.fst).Nodup
  good : ∀ e ∈ t.valid, e.1 = (getStr e.2 "provider").getD "?" ∧
    ∃ decision, (decision, e.2) ∈ items ∧ Good U s request now advisory decision e.2

theorem Tally.Sound.count {s : SafetyLayer F} {items : List (Value F × Value F)} {t : Tally F} {f : Finding F}
    (h : t.Sound U s request now advisory items) (hmem : (decision, response) ∈ items)
    (hgood : f.ok = true → Good U s request now advisory decision response) :
    (t.count response f).Sound U s request now advisory items := by
  have hvalid : (t.count response f).valid =
      if f.ok = true ∧ (getStr response "provider").getD "?" ∉ t.valid.map Prod.fst then
        t.valid ++ [((getStr response "provider").getD "?", response)] else t.valid := rfl
  by_cases hnew : f.ok = true ∧ (getStr response "provider").getD "?" ∉ t.valid.map Prod.fst
  · rw [if_pos hnew] at hvalid
    refine ⟨?_, fun e he => ?_⟩
    · rw [hvalid, List.map_append, List.map_singleton, ← List.concat_eq_append]
      exact h.nodup.concat hnew.2
    · rw [hvalid] at he
      rcases List.mem_append.mp he with he | he
      · exact h.good e he
      · rw [List.mem_singleton.mp he]
        exact ⟨rfl, decision, hmem, hgood hnew.1⟩
  · rw [if_neg hnew] at hvalid
    exact ⟨by rw [hvalid]; exact h.nodup, fun e he => h.good e (hvalid ▸ he)⟩

theorem tally_sound {s : SafetyLayer F} {all : List (Value F × Value F)} :
    ∀ {items : List (Value F × Value F)} {t t' : Tally F} {s₁ s₂ : SafetyLayer F}, items ⊆ all →
      s₁.leases = s.leases → s₁.ledger = s.ledger → t.Sound U s request now advisory all →
      tally U request now advisory items t s₁ = (.ok t', s₂) → t'.Sound U s request now advisory all
  | [], t, t', s₁, s₂, _, _, _, ht, h => by
      obtain ⟨hok, -⟩ := Prod.mk.inj h
      rw [← Except.ok.inj hok]
      exact ht
  | (decision, response) :: items, t, t', s₁, s₂, hsub, hleases, hledger, ht, h => by
      rw [tally] at h
      have hkeeps := inspect_keeps (U := U) s₁ request decision response now advisory
      cases hinspect : s₁.inspect U request decision response now advisory with
      | mk res s₃ =>
          rw [hinspect] at h hkeeps
          cases res with
          | error e =>
              obtain ⟨hok, -⟩ := Prod.mk.inj h
              cases hok
          | ok f =>
              refine tally_sound (fun p hp => hsub (List.mem_cons_of_mem _ hp)) (hkeeps.1.trans hleases)
                (hkeeps.2.trans hledger) ?_ h
              refine ht.count (hsub List.mem_cons_self) fun hok => ⟨s₁, f, hleases, hledger, ?_, hok⟩
              rw [hinspect]

/-- An answer that a verdict rests on: its node signed it for this request, it
was inspected and found good, and it agrees with what is delivered. -/
structure Backs (U : SafetyConfig F) (s : SafetyLayer F) (request : Value F) (now : F)
    (advisory : Option (Value F)) (items : List (Value F × Value F)) (output provider : String)
    (response : Value F) : Prop where
  signer : getStr response "provider" = some provider
  mesh : U.trust.mesh provider = true
  answers : getStr response "request_hash" = some (digest U.C request)
  inspected : ∃ decision, (decision, response) ∈ items ∧ Good U s request now advisory decision response
  agrees : outputOf response = output ∨ U.agree output (outputOf response) = .ok true

theorem Tally.Sound.backs {s : SafetyLayer F} {items : List (Value F × Value F)} {t : Tally F}
    (h : t.Sound U s request now advisory items) {e : String × Value F} (he : e ∈ t.valid) {output : String}
    (hagrees : outputOf e.2 = output ∨ U.agree output (outputOf e.2) = .ok true) :
    Backs U s request now advisory items output e.1 e.2 := by
  obtain ⟨hname, decision, hmem, hgood⟩ := h.good e he
  obtain ⟨provider, hprovider, hmesh, hhash⟩ := hgood.signed
  obtain rfl : provider = e.1 := by rw [hname, hprovider, Option.getD_some]
  exact ⟨hprovider, hmesh, hhash, ⟨decision, hmem, hgood⟩, hagrees⟩

/-- The nodes of an accepted verdict are distinct, there are as many as were
needed, and each gave an answer that bears the verdict. -/
theorem verdictOf_accepted {s : SafetyLayer F} {items : List (Value F × Value F)} {t : Tally F} {needed : Int}
    {verdict : Verdict F} (ht : t.Sound U s request now advisory items)
    (h : verdictOf U needed t = .ok verdict) (haccepted : verdict.status = .accepted) :
    verdict.providers ≠ [] ∧ verdict.providers.Nodup ∧ needed ≤ verdict.providers.length ∧
      ∃ output, verdict.output = some output ∧ ∀ p ∈ verdict.providers, ∃ response,
        Backs U s request now advisory items output p response := by
  rw [verdictOf] at h
  split_ifs at h with hevidence hfew
  · obtain rfl := Except.ok.inj h
    cases haccepted
  · obtain rfl := Except.ok.inj h
    cases haccepted
  · obtain ⟨gs, hgroups, h⟩ := bind_ok.mp h
    split at h
    · cases h
    · next best hbest =>
        split_ifs at h with hsmall
        · obtain rfl := Except.ok.inj h
          cases haccepted
        · obtain rfl := Except.ok.inj h
          have hmem := (largest_spec hbest).1
          have hsub : best.members.Subperm t.valid := subperm_of_groupAnswers hgroups hmem
          obtain ⟨l, hperm, hsublist⟩ := id hsub
          refine ⟨List.cons_ne_nil _ _, ?_, ?_, _, rfl, fun p hp => ?_⟩
          · exact (hperm.map Prod.fst).nodup_iff.mp ((hsublist.map Prod.fst).nodup ht.nodup)
          · rw [List.length_map]
            exact not_lt.mp hsmall
          · obtain ⟨e, he, rfl⟩ := List.mem_map.mp hp
            refine ⟨e.2, ht.backs (hsub.subset he) ?_⟩
            rcases List.mem_cons.mp he with rfl | he
            · exact .inl rfl
            · exact .inr (groupAnswers_agree hgroups best hmem e he)

/-- **An accepted verdict is borne out**: it names distinct nodes, as many as
were needed, and each of them signed an answer for this request that was
inspected, found good and agrees with what is delivered. -/
theorem adjudicate_accepted {s : SafetyLayer F} {items : List (Value F × Value F)} {quorum : Option Int}
    {verdict : Verdict F} (h : (s.adjudicate U request items now quorum advisory).1 = .ok verdict)
    (haccepted : verdict.status = .accepted) :
    verdict.providers ≠ [] ∧ verdict.providers.Nodup ∧
      quorum.getD ((getInt request "quorum").getD 0) ≤ verdict.providers.length ∧
      ∃ output, verdict.output = some output ∧ ∀ p ∈ verdict.providers, ∃ response,
        Backs U s request now advisory items output p response := by
  rw [SafetyLayer.adjudicate] at h
  cases htally : tally U request now advisory items {} s with
  | mk res s₁ =>
      rw [htally] at h
      cases res with
      | error e => cases h
      | ok t =>
          refine verdictOf_accepted (tally_sound (fun p hp => hp) rfl rfl ?_ htally) h haccepted
          exact ⟨List.nodup_nil, fun e he => by cases he⟩

end

end Secdogie.Inference
