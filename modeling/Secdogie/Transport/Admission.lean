/-
# `Secdogie.Transport.Admission` — budgets and timestamps of requests

What the rendezvous and the relay ask of a request before they act on it: its
signer has a token left in its bucket, and its timestamp is near the clock and
newer than the newest one accepted.
-/
import Secdogie.Identity.Num
import Secdogie.Identity.Revocation
import Secdogie.Lib.StrMap

namespace Secdogie.Transport

open Secdogie.Graph Secdogie.Identity

structure Bucket (F : Type) where
  tokens : F
  at_ : F

structure Limits (F : Type) where
  max_skew : F
  rate : F
  burst : F
  /-- `1.0` -/
  one : F

/-- Why a request comes to nothing. -/
inductive Drop where
  | malformed
  | unauthenticated
  | rate_limited
  | stale
  | replayed
  | full
  | unauthorized
  | no_route
  /-- handling it raises -/
  | raised
deriving DecidableEq

section

variable {F : Type} [PyFloat F] (L : Limits F)

/-- `min(a, b)` -/
def pyMin (a b : F) : F := if PyFloat.lt b a then b else a

/-- `_take`: whether there was a token, and the buckets without it. -/
def take (buckets : StrMap (Bucket F)) (did : String) (now : F) : Bool × StrMap (Bucket F) :=
  let bucket := buckets.getD did ⟨L.burst, now⟩
  let tokens := pyMin L.burst
    (PyFloat.add bucket.tokens (PyFloat.mul (PyFloat.sub now bucket.at_) L.rate))
  if PyFloat.lt tokens L.one then (false, buckets.insert did ⟨tokens, now⟩)
  else (true, buckets.insert did ⟨PyFloat.sub tokens L.one, now⟩)

/-- `math.isfinite` -/
def finite (f : F) : Option F := if PyFloat.isFinite f && !PyFloat.isNaN f then some f else none

/-- `_is_num`, and the number as a float; `none` when this raises, for an
integer that is too large. -/
def number : Option (Value F) → Option (Option F)
  | some (.int n) => (PyFloat.ofInt n).map finite
  | some (.float f) => some (finite f)
  | _ => some none

/-- The timestamp of a request, when it is fresh.  An integer is compared as
its float, which is itself for one near a clock of seconds. -/
def fresh (now : F) (last : Option F) (ts : Option (Value F)) : Except Drop F :=
  match number ts with
  | none => .error .raised
  | some none => .error .stale
  | some (some f) =>
      if PyFloat.lt L.max_skew (PyFloat.sub now f) || PyFloat.lt L.max_skew (PyFloat.sub f now) then
        .error .stale
      else if last.any (PyFloat.le f) then .error .replayed
      else .ok f

variable {L}

theorem finite_some {f g : F} (h : finite f = some g) : PyFloat.isNaN g = false := by
  rw [finite] at h
  split_ifs at h with hfinite
  cases h
  rw [Bool.and_eq_true, Bool.not_eq_true'] at hfinite
  exact hfinite.2

theorem number_some {v : Option (Value F)} {f : F} (h : number v = some (some f)) :
    PyFloat.isNaN f = false := by
  rw [number.eq_def] at h
  split at h
  · obtain ⟨g, -, hg⟩ := Option.map_eq_some_iff.mp h
    exact finite_some hg
  · exact finite_some (Option.some.inj h)
  · cases h

/-- A fresh timestamp is a number, and not among those up to the newest. -/
theorem of_fresh {now f : F} {last : Option F} {ts : Option (Value F)}
    (h : fresh L now last ts = .ok f) :
    PyFloat.isNaN f = false ∧ ∀ l, last = some l → PyFloat.le f l = false := by
  rw [fresh] at h
  split at h
  · cases h
  · cases h
  · next g hnumber =>
      split_ifs at h with hskew hlast
      cases h
      refine ⟨number_some hnumber, ?_⟩
      intro l hl
      rw [hl] at hlast
      exact Bool.eq_false_iff.mpr hlast

theorem lt_of_not_le [LawfulPyFloat F] {f l : F} (hf : PyFloat.isNaN f = false)
    (hl : PyFloat.isNaN l = false) (h : PyFloat.le f l = false) : PyFloat.lt l f = true := by
  rcases LawfulPyFloat.le_total f l hf hl with hle | hle
  · rw [h] at hle
    cases hle
  · exact (LawfulPyFloat.lt_iff l f).mpr ⟨hle, h⟩

/-! ## The newest timestamp -/

/-- The registrations accepted, newest first, and the newest timestamp accepted
of each DID, which is no less. -/
structure Recorded (last : StrMap F) (registered : List (String × F)) : Prop where
  number : ∀ (did : String) l, last[did]? = some l → PyFloat.isNaN l = false
  bounded : ∀ p ∈ registered, ∃ l, last[p.1]? = some l ∧ PyFloat.le p.2 l = true

/-- The timestamp is that of the last registration of the DID, and all others
of it are smaller. -/
def Latest (registered : List (String × F)) (did : String) (ts : F) : Prop :=
  ∃ rest, registered.filter (fun p => decide (p.1 = did)) = (did, ts) :: rest ∧
    ∀ p ∈ rest, PyFloat.lt p.2 ts = true

theorem recorded_nil : Recorded (∅ : StrMap F) [] where
  number did l h := by
    rw [StrMap.get_empty] at h
    cases h
  bounded _ h := nomatch h

theorem Latest.cons_other {registered : List (String × F)} {did signer : String} {ts f : F}
    (h : Latest registered did ts) (hne : signer ≠ did) :
    Latest ((signer, f) :: registered) did ts := by
  obtain ⟨rest, hrest, hlt⟩ := h
  refine ⟨rest, ?_, hlt⟩
  rw [List.filter_cons_of_neg (by simpa using hne)]
  exact hrest

variable [LawfulPyFloat F] {last : StrMap F} {registered : List (String × F)} {signer : String}
  {now f : F} {ts : Option (Value F)}

/-- A fresh timestamp is above those of all earlier registrations. -/
theorem Recorded.lt_fresh (h : Recorded last registered)
    (hfresh : fresh L now (last[signer]?) ts = .ok f) :
    ∀ p ∈ registered, p.1 = signer → PyFloat.lt p.2 f = true := by
  obtain ⟨hnumber, hnew⟩ := of_fresh hfresh
  intro p hp hsigner
  obtain ⟨l, hl, hle⟩ := h.bounded p hp
  have hlf := lt_of_not_le hnumber (h.number p.1 l hl) (hnew l (hsigner ▸ hl))
  obtain ⟨hlf, hfl⟩ := (LawfulPyFloat.lt_iff l f).mp hlf
  refine (LawfulPyFloat.lt_iff p.2 f).mpr ⟨LawfulPyFloat.le_trans _ _ _ hle hlf, ?_⟩
  refine Bool.eq_false_iff.mpr (fun hfp => ?_)
  rw [LawfulPyFloat.le_trans _ _ _ hfp hle] at hfl
  cases hfl

theorem Recorded.insert (h : Recorded last registered)
    (hfresh : fresh L now (last[signer]?) ts = .ok f) :
    Recorded (last.insert signer f) registered where
  number did l hl := by
    rw [StrMap.get_insert] at hl
    split_ifs at hl
    · cases hl
      exact (of_fresh hfresh).1
    · exact h.number did l hl
  bounded p hp := by
    rw [StrMap.get_insert]
    split_ifs with heq
    · have hlt := h.lt_fresh hfresh p hp heq.symm
      exact ⟨f, rfl, ((LawfulPyFloat.lt_iff p.2 f).mp hlt).1⟩
    · exact h.bounded p hp

theorem Recorded.cons (h : Recorded last registered)
    (hfresh : fresh L now (last[signer]?) ts = .ok f) :
    Recorded (last.insert signer f) ((signer, f) :: registered) where
  number := (h.insert hfresh).number
  bounded p hp := by
    rcases List.mem_cons.mp hp with rfl | hp
    · have hself : PyFloat.le f f = true := by
        have hnumber := (of_fresh hfresh).1
        exact (LawfulPyFloat.le_total f f hnumber hnumber).elim id id
      exact ⟨f, by rw [StrMap.get_insert, if_pos rfl], hself⟩
    · exact (h.insert hfresh).bounded p hp

theorem Recorded.latest (h : Recorded last registered)
    (hfresh : fresh L now (last[signer]?) ts = .ok f) :
    Latest ((signer, f) :: registered) signer f := by
  refine ⟨registered.filter (fun p => decide (p.1 = signer)), ?_, ?_⟩
  · rw [List.filter_cons_of_pos (by simp)]
  · intro p hp
    obtain ⟨hmem, hsigner⟩ := List.mem_filter.mp hp
    exact h.lt_fresh hfresh p hmem (of_decide_eq_true hsigner)

end

end Secdogie.Transport
