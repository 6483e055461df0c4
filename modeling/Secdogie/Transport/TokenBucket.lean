/-
# `Secdogie.Transport.TokenBucket` — what a budget of requests lets through

The rendezvous and the relay give each DID a bucket of tokens that fills with
the time between two readings of the clock.  A reading may lie before the last
one, and then the bucket is drained: below zero when the step back costs more
than it holds.  Where no step does (`Afforded`), the tokens stay in range and no
interval lets through more than its burst and its rate (`keeps_iff`).  Floats
are the numbers that they stand for.
-/
import Secdogie.Transport.Admission

namespace Secdogie.Transport

open Secdogie.Graph Secdogie.Identity

namespace TokenBucket

/-- Exact numbers, none of which is read from a text. -/
instance : PyFloat ℚ where
  ofToken _ := none
  repr q := intDigits q.num ++ '/' :: intDigits q.den
  ofInt n := some n
  ofText _ := none
  isNaN _ := false
  isFinite _ := true
  le a b := decide (a ≤ b)
  lt a b := decide (a < b)
  add a b := a + b
  sub a b := a - b
  mul a b := a * b

/-- Requests, each with its DID and the reading of the clock. -/
abbrev Requests := List (String × ℚ)

variable (L : Limits ℚ)

/-- The bucket of a DID, a full one if it has none. -/
def bucketOf (buckets : StrMap (Bucket ℚ)) (did : String) (now : ℚ) : Bucket ℚ :=
  buckets.getD did ⟨L.burst, now⟩

/-- The tokens of a DID at a reading, before the bucket is found full. -/
def earned (buckets : StrMap (Bucket ℚ)) (did : String) (now : ℚ) : ℚ :=
  (bucketOf L buckets did now).tokens + (now - (bucketOf L buckets did now).at_) * L.rate

def serve (buckets : StrMap (Bucket ℚ)) (reqs : Requests) : StrMap (Bucket ℚ) :=
  reqs.foldl (fun buckets r => (take L buckets r.1 r.2).2) buckets

/-- How many requests of the DID are let through. -/
def granted (did : String) (buckets : StrMap (Bucket ℚ)) : Requests → ℕ
  | [] => 0
  | r :: reqs =>
      (if r.1 = did ∧ (take L buckets r.1 r.2).1 = true then 1 else 0) +
        granted did (take L buckets r.1 r.2).2 reqs

/-- The readings at the requests of the DID. -/
def readings (did : String) (reqs : Requests) : List ℚ :=
  (reqs.filter fun r => r.1 = did).map Prod.snd

structure Keeps (reqs : Requests) : Prop where
  in_range : ∀ before : Requests, before <+: reqs → ∀ (did : String) (bucket : Bucket ℚ),
    (serve L ∅ before)[did]? = some bucket →
      0 ≤ bucket.tokens ∧ bucket.tokens ≤ L.burst
  bounded : ∀ before mid after : Requests, reqs = before ++ mid ++ after → ∀ did first last,
    (readings did mid).head? = some first → (readings did mid).getLast? = some last →
      (granted L did (serve L ∅ before) mid : ℚ) ≤ L.burst + L.rate * (last - first)

/-- No reading lies further back than the tokens of its DID pay for. -/
def Afforded (reqs : Requests) : Prop :=
  ∀ before did now after, reqs = before ++ (did, now) :: after →
    0 ≤ earned L (serve L ∅ before) did now

variable {L} {buckets : StrMap (Bucket ℚ)} {did did' : String} {now : ℚ} {reqs : Requests}

/-! ## One request -/

theorem take_eq (hone : L.one = 1) :
    take L buckets did now =
      if min L.burst (earned L buckets did now) < 1 then
        (false, buckets.insert did ⟨min L.burst (earned L buckets did now), now⟩)
      else (true, buckets.insert did ⟨min L.burst (earned L buckets did now) - 1, now⟩) := by
  have hmin : ∀ a b : ℚ, pyMin a b = min a b := fun a b => by
    rw [pyMin, min_def]
    change (if decide (b < a) = true then b else a) = _
    by_cases h : a ≤ b
    · rw [if_neg (by simpa using h), if_pos h]
    · rw [if_pos (by simpa using h), if_neg h]
  rw [take, hmin, hone]
  change (if decide (min L.burst (earned L buckets did now) < 1) = true then _ else _) = _
  simp only [decide_eq_true_iff]
  rfl

/-- A request leaves in its bucket what was earned, up to the burst, less one if it is let
through. -/
theorem get_take (hone : L.one = 1) :
    (take L buckets did now).2[did]? =
      some ⟨min L.burst (earned L buckets did now) -
        (if (take L buckets did now).1 = true then 1 else 0), now⟩ := by
  rw [take_eq hone]
  by_cases h : min L.burst (earned L buckets did now) < 1
  · rw [if_pos h, if_neg Bool.false_ne_true, sub_zero, StrMap.get_insert, if_pos rfl]
  · rw [if_neg h, if_pos rfl, StrMap.get_insert, if_pos rfl]

theorem let_through_iff (hone : L.one = 1) :
    (take L buckets did now).1 = true ↔ 1 ≤ min L.burst (earned L buckets did now) := by
  rw [take_eq hone]
  by_cases h : min L.burst (earned L buckets did now) < 1
  · rw [if_pos h]
    exact iff_of_false Bool.false_ne_true (not_le.mpr h)
  · rw [if_neg h]
    exact iff_of_true rfl (not_lt.mp h)

/-- The other buckets stay as they are. -/
theorem get_take_other (hone : L.one = 1) (h : did ≠ did') :
    (take L buckets did now).2[did']? = buckets[did']? := by
  rw [take_eq hone]
  split_ifs <;> simp [h]

theorem bucketOf_eq : bucketOf L buckets did now = buckets[did]?.getD ⟨L.burst, now⟩ := by
  rw [bucketOf, Std.ExtTreeMap.getD_eq_getD_getElem?]

/-! ## Runs -/

theorem serve_append (before mid : Requests) :
    serve L buckets (before ++ mid) = serve L (serve L buckets before) mid :=
  List.foldl_append

theorem granted_append (did : String) (before mid : Requests) :
    granted L did buckets (before ++ mid) =
      granted L did buckets before + granted L did (serve L buckets before) mid := by
  induction before generalizing buckets with
  | nil => simp [granted, serve]
  | cons r before ih =>
      rw [List.cons_append, granted, granted, ih, Nat.add_assoc]
      rfl

theorem granted_single (did : String) (r : String × ℚ) :
    granted L did buckets [r] =
      if r.1 = did ∧ (take L buckets r.1 r.2).1 = true then 1 else 0 := by
  simp [granted]

theorem readings_append (did : String) (before mid : Requests) :
    readings did (before ++ mid) = readings did before ++ readings did mid := by
  simp [readings]

/-- A DID without a request is let through nowhere, and its bucket stays. -/
theorem of_readings_nil (hone : L.one = 1) (h : readings did reqs = []) :
    granted L did buckets reqs = 0 ∧ (serve L buckets reqs)[did]? = buckets[did]? := by
  induction reqs generalizing buckets with
  | nil => exact ⟨rfl, rfl⟩
  | cons r reqs ih =>
      have hr : r.1 ≠ did := fun hr => by simp [readings, hr] at h
      have hrest : readings did reqs = [] := by simpa [readings, hr] using h
      obtain ⟨hgranted, hserve⟩ := @ih (take L buckets r.1 r.2).2 hrest
      rw [granted, hgranted, if_neg (fun hin => hr hin.1)]
      exact ⟨rfl, hserve.trans (get_take_other hone hr)⟩

theorem exists_bucket (hone : L.one = 1) (h : readings did reqs ≠ []) :
    ∃ bucket, (serve L buckets reqs)[did]? = some bucket := by
  induction reqs using List.reverseRecOn with
  | nil => exact absurd rfl h
  | append_singleton reqs r ih =>
      rw [serve_append]
      by_cases hr : r.1 = did
      · subst hr
        exact ⟨_, get_take hone⟩
      · have hnone : readings did [r] = [] := by simp [readings, hr]
        rw [readings_append, hnone, List.append_nil] at h
        obtain ⟨bucket, hbucket⟩ := ih h
        exact ⟨bucket, (get_take_other hone hr).trans hbucket⟩

/-- What an interval lets through is paid for by the tokens at its first reading, by the rate and
by what is left. -/
theorem granted_le (hone : L.one = 1) {first last : ℚ} {bucket : Bucket ℚ}
    (hfirst : (readings did reqs).head? = some first)
    (hlast : (readings did reqs).getLast? = some last)
    (hbucket : (serve L buckets reqs)[did]? = some bucket) :
    bucket.at_ = last ∧
      (granted L did buckets reqs : ℚ) ≤ L.burst - bucket.tokens + L.rate * (last - first) := by
  induction reqs using List.reverseRecOn generalizing last bucket with
  | nil => simp [readings] at hfirst
  | append_singleton reqs r ih =>
      obtain ⟨d, now⟩ := r
      rw [readings_append] at hfirst hlast
      rw [serve_append] at hbucket
      rw [granted_append, granted_single]
      by_cases hd : d = did
      · subst hd
        have hnow : readings d [(d, now)] = [now] := by simp [readings]
        rw [hnow] at hfirst hlast
        obtain rfl : now = last := by simpa using hlast
        have hget : (serve L (serve L buckets reqs) [(d, now)])[d]? = _ := get_take hone
        rw [hget] at hbucket
        obtain rfl := Option.some.inj hbucket
        refine ⟨rfl, ?_⟩
        have hcount : (((if d = d ∧ (take L (serve L buckets reqs) d now).1 = true then 1 else 0 : ℕ)) : ℚ) =
            if (take L (serve L buckets reqs) d now).1 = true then 1 else 0 := by
          simp
        rw [Nat.cast_add, hcount]
        have hburst := min_le_left L.burst (earned L (serve L buckets reqs) d now)
        rcases hempty : readings d reqs with - | ⟨t, ts⟩
        · rw [hempty] at hfirst
          obtain rfl : now = first := by simpa using hfirst
          rw [(of_readings_nil hone hempty).1]
          simp only [Nat.cast_zero, sub_self, mul_zero]
          linarith
        · have hne : readings d reqs ≠ [] := by simp [hempty]
          obtain ⟨prev, hprev⟩ := @exists_bucket L buckets _ _ hone hne
          have hthen : (readings d reqs).getLast? = some ((readings d reqs).getLast hne) :=
            List.getLast?_eq_some_getLast hne
          have hstart : (readings d reqs).head? = some first := by
            rw [hempty] at hfirst ⊢
            exact hfirst
          obtain ⟨hat, hle⟩ := ih hstart hthen hprev
          have hearned : earned L (serve L buckets reqs) d now =
              prev.tokens + (now - prev.at_) * L.rate := by
            rw [earned, bucketOf_eq, hprev, Option.getD_some]
          have hmin := min_le_right L.burst (earned L (serve L buckets reqs) d now)
          rw [← hat] at hle
          dsimp only
          nlinarith only [hle, hmin, hearned]
      · have hnone : readings did [(d, now)] = [] := by simp [readings, hd]
        rw [hnone, List.append_nil] at hfirst hlast
        have hget : (serve L (serve L buckets reqs) [(d, now)])[did]? =
            (serve L buckets reqs)[did]? := get_take_other hone hd
        rw [hget] at hbucket
        obtain ⟨hat, hle⟩ := ih hfirst hlast hbucket
        rw [if_neg (fun h => hd h.1), Nat.add_zero]
        exact ⟨hat, hle⟩

/-- The first request of a DID finds the burst itself. -/
theorem earned_empty : earned L ∅ did now = L.burst := by
  rw [earned, bucketOf_eq, StrMap.get_empty, Option.getD_none]
  simp

theorem burst_nonneg (h : Afforded L reqs) (hne : reqs ≠ []) : 0 ≤ L.burst := by
  obtain ⟨⟨d, t⟩, rest, rfl⟩ := List.exists_cons_of_ne_nil hne
  have hearned := h [] d t rest rfl
  rwa [serve, List.foldl_nil, earned_empty] at hearned

theorem in_range_of_afforded (hone : L.one = 1) (h : Afforded L reqs) {bucket : Bucket ℚ}
    (hbucket : (serve L ∅ reqs)[did]? = some bucket) :
    0 ≤ bucket.tokens ∧ bucket.tokens ≤ L.burst := by
  induction reqs using List.reverseRecOn with
  | nil => simp [serve] at hbucket
  | append_singleton reqs r ih =>
      obtain ⟨d, now⟩ := r
      have hbefore : Afforded L reqs := fun before d' now' after hreqs =>
        h before d' now' (after ++ [(d, now)]) (by simp [hreqs])
      rw [serve_append] at hbucket
      by_cases hd : d = did
      · subst hd
        have hearned := h reqs d now [] rfl
        have hget : (serve L (serve L ∅ reqs) [(d, now)])[d]? = _ := get_take hone
        rw [hget] at hbucket
        obtain rfl := Option.some.inj hbucket
        dsimp only
        have hburst := min_le_left L.burst (earned L (serve L ∅ reqs) d now)
        by_cases hthrough : (take L (serve L ∅ reqs) d now).1 = true
        · have hfull := (let_through_iff hone).mp hthrough
          rw [if_pos hthrough]
          constructor <;> linarith
        · rw [if_neg hthrough, sub_zero]
          exact ⟨le_min (burst_nonneg h (by simp)) hearned, hburst⟩
      · have hget : (serve L (serve L ∅ reqs) [(d, now)])[did]? = (serve L ∅ reqs)[did]? :=
          get_take_other hone hd
        rw [hget] at hbucket
        exact ih hbefore hbucket

theorem afforded_of_keeps (hone : L.one = 1) (h : Keeps L reqs) : Afforded L reqs := by
  intro before did now after hreqs
  have hpre : before ++ [(did, now)] <+: reqs := ⟨after, by simp [hreqs]⟩
  have hget := @get_take L (serve L ∅ before) did now hone
  have hserve : (serve L ∅ (before ++ [(did, now)])) = (take L (serve L ∅ before) did now).2 := by
    rw [serve_append]
    rfl
  rw [← hserve] at hget
  have hrange := (h.in_range _ hpre did _ hget).1
  have hmin := min_le_right L.burst (earned L (serve L ∅ before) did now)
  dsimp only at hrange
  split_ifs at hrange <;> linarith

theorem keeps_of_afforded (hone : L.one = 1) (h : Afforded L reqs) : Keeps L reqs := by
  have hpart : ∀ before : Requests, before <+: reqs → Afforded L before := by
    rintro before ⟨rest, rfl⟩ pre did now after hbefore
    exact h pre did now (after ++ rest) (by simp [hbefore])
  refine ⟨fun before hbefore did bucket hbucket =>
    in_range_of_afforded hone (hpart before hbefore) hbucket, ?_⟩
  intro before mid after hreqs did first last hfirst hlast
  have hne : readings did mid ≠ [] := fun hnil => by simp [hnil] at hfirst
  obtain ⟨bucket, hbucket⟩ := @exists_bucket L (serve L ∅ before) _ _ hone hne
  obtain ⟨-, hle⟩ := granted_le hone hfirst hlast hbucket
  rw [← serve_append] at hbucket
  have hrange := (in_range_of_afforded hone (hpart _ ⟨after, hreqs.symm⟩) hbucket).1
  linarith

/-- A service with these limits. -/
def limits (max_skew rate burst : ℚ) : Limits ℚ := { max_skew, rate, burst, one := 1 }

end TokenBucket

end Secdogie.Transport
