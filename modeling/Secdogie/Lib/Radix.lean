/-
# `Secdogie.Lib.Radix` — texts of digits in two radixes

A text of digits, the most significant first, stands for a number and for its
leading zeros; both together it determines, and they determine it.  Writing
them in another radix (`recode`) is hence undone by writing them back.  The
buffer of digits that a program multiplies in place (`mulAdd`) stays the
digits of the number it has read.
-/
import Mathlib

namespace Secdogie

/-! ## Multiplying in place -/

/-- `while carry > 0 { push(carry % base); carry /= base }` -/
def pushCarry (base : Nat) (hbase : 1 < base) (carry : Nat) : List Nat :=
  if _h : 0 < carry then carry % base :: pushCarry base hbase (carry / base) else []
termination_by carry
decreasing_by exact Nat.div_lt_self _h hbase

/-- The digits, least significant first, times `m` plus the carry. -/
def mulAdd (base : Nat) (hbase : 1 < base) (m : Nat) : Nat → List Nat → List Nat
  | carry, [] => pushCarry base hbase carry
  | carry, d :: ds =>
      (carry + d * m) % base :: mulAdd base hbase m ((carry + d * m) / base) ds

section

variable {base m : Nat} (hbase : 1 < base)

theorem pushCarry_eq (carry : Nat) : pushCarry base hbase carry = base.digits carry := by
  induction carry using Nat.strong_induction_on with
  | _ carry ih =>
      rw [pushCarry]
      split_ifs with h
      · rw [Nat.digits_def' hbase h, ih _ (Nat.div_lt_self h hbase)]
      · rw [Nat.eq_zero_of_not_pos h, Nat.digits_zero]

theorem mulAdd_digits (hm : 0 < m) (n carry : Nat) :
    mulAdd base hbase m carry (base.digits n) = base.digits (n * m + carry) := by
  induction n using Nat.strong_induction_on generalizing carry with
  | _ n ih =>
      rcases Nat.eq_zero_or_pos n with rfl | hn
      · rw [Nat.digits_zero, mulAdd, pushCarry_eq, Nat.zero_mul, Nat.zero_add]
      · have hpos : 0 < n * m + carry := Nat.add_pos_left (Nat.mul_pos hn hm) carry
        have hsplit : n * m + carry = (carry + n % base * m) + base * (n / base * m) := by
          calc n * m + carry = (n % base + base * (n / base)) * m + carry := by
                rw [Nat.mod_add_div]
            _ = (carry + n % base * m) + base * (n / base * m) := by ring
        have hmod : (n * m + carry) % base = (carry + n % base * m) % base := by
          rw [hsplit, Nat.add_mul_mod_self_left]
        have hdiv : (n * m + carry) / base = n / base * m + (carry + n % base * m) / base := by
          rw [hsplit, Nat.add_mul_div_left _ _ (Nat.zero_lt_of_lt hbase), Nat.add_comm]
        rw [Nat.digits_def' hbase hn, Nat.digits_def' hbase hpos, mulAdd, hmod, hdiv,
          ih _ (Nat.div_lt_self hn hbase)]

end

/-! ## Numbers and leading zeros -/

/-- `int.from_bytes(ds, "big")` -/
def fromBig (base : Nat) (ds : List Nat) : Nat := ds.foldl (fun n d => n * base + d) 0

/-- The number of zeros that the text starts with. -/
def leadingZeros (ds : List Nat) : Nat := (ds.takeWhile (· = 0)).length

/-- The leading zeros, and the number in another radix. -/
def recode (base base' : Nat) (ds : List Nat) : List Nat :=
  List.replicate (leadingZeros ds) 0 ++ (base'.digits (fromBig base ds)).reverse

theorem fromBig_eq (base : Nat) (ds : List Nat) :
    fromBig base ds = Nat.ofDigits base ds.reverse := by
  induction ds using List.reverseRecOn with
  | nil => rfl
  | append_singleton ds d ih =>
      rw [fromBig, List.foldl_append, List.foldl_cons, List.foldl_nil, List.reverse_append,
        List.reverse_singleton, List.singleton_append, Nat.ofDigits_cons, ← ih, fromBig,
        Nat.add_comm, Nat.mul_comm]

/-- Reading a text digit by digit in place leaves the digits of its number. -/
theorem foldl_mulAdd {base m : Nat} (hbase : 1 < base) (hm : 0 < m) (ds : List Nat) :
    ds.foldl (fun le d => mulAdd base hbase m d le) [] = base.digits (fromBig m ds) := by
  induction ds using List.reverseRecOn with
  | nil => exact (Nat.digits_zero base).symm
  | append_singleton ds d ih =>
      rw [List.foldl_append, List.foldl_cons, List.foldl_nil, ih, mulAdd_digits hbase hm, fromBig,
        fromBig, List.foldl_append, List.foldl_cons, List.foldl_nil]

theorem leadingZeros_replicate (z : Nat) (ds : List Nat) (h : ∀ d ∈ ds.head?, d ≠ 0) :
    leadingZeros (List.replicate z 0 ++ ds) = z := by
  induction z with
  | zero =>
      cases ds with
      | nil => rfl
      | cons d ds =>
          have hd : d ≠ 0 := h d rfl
          simp [leadingZeros, hd]
  | succ z ih =>
      rw [List.replicate_succ, List.cons_append, leadingZeros, List.takeWhile_cons_of_pos (by simp),
        List.length_cons]
      exact congrArg (· + 1) ih

/-- A text is its leading zeros and a rest that starts with none. -/
theorem split_leadingZeros (ds : List Nat) :
    ∃ rest, ds = List.replicate (leadingZeros ds) 0 ++ rest ∧ ∀ d ∈ rest.head?, d ≠ 0 := by
  refine ⟨ds.dropWhile (· = 0), ?_, fun d hd => ?_⟩
  · have hzeros : ds.takeWhile (· = 0) = List.replicate (leadingZeros ds) 0 :=
      List.eq_replicate_iff.mpr ⟨rfl, fun d hd => by simpa using List.mem_takeWhile_imp hd⟩
    rw [← hzeros, List.takeWhile_append_dropWhile]
  · intro hzero
    have hhead := List.head?_dropWhile_not (fun d : Nat => decide (d = 0)) ds
    rw [Option.mem_def] at hd
    rw [hd] at hhead
    simp [hzero] at hhead

theorem fromBig_replicate (base z : Nat) (ds : List Nat) :
    fromBig base (List.replicate z 0 ++ ds) = fromBig base ds := by
  rw [fromBig_eq, fromBig_eq, List.reverse_append, List.reverse_replicate,
    Nat.ofDigits_append_replicate_zero]

/-- The digits of a number do not start with a zero. -/
theorem head_reverse_digits {base : Nat} (n : Nat) :
    ∀ d ∈ (base.digits n).reverse.head?, d ≠ 0 := by
  intro d hd
  rcases Nat.eq_zero_or_pos n with rfl | hn
  · rw [Nat.digits_zero] at hd
    cases hd
  · rw [List.head?_reverse, Option.mem_def] at hd
    have hne : base.digits n ≠ [] := Nat.digits_ne_nil_iff_ne_zero.mpr hn.ne'
    rw [List.getLast?_eq_some_getLast hne] at hd
    exact Option.some.inj hd ▸ Nat.getLast_digit_ne_zero base hn.ne'

/-- Canonical digits are those of their number. -/
theorem digits_fromBig {base : Nat} (hbase : 1 < base) {ds : List Nat} (hlt : ∀ d ∈ ds, d < base)
    (hhead : ∀ d ∈ ds.head?, d ≠ 0) : (base.digits (fromBig base ds)).reverse = ds := by
  rw [fromBig_eq, Nat.digits_ofDigits base hbase ds.reverse
    (fun d hd => hlt d (List.mem_reverse.mp hd)) (fun hne => ?_), List.reverse_reverse]
  rw [List.getLast_reverse]
  exact hhead _ (List.head?_eq_some_head _)

/-- Writing a text in another radix and back gives the text. -/
theorem recode_recode {base base' : Nat} (hbase : 1 < base) {ds : List Nat}
    (hlt : ∀ d ∈ ds, d < base) : recode base' base (recode base base' ds) = ds := by
  obtain ⟨rest, hsplit, hhead⟩ := split_leadingZeros ds
  have hrest : ∀ d ∈ rest, d < base := fun d hd => hlt d (hsplit ▸ List.mem_append_right _ hd)
  have hvalue : fromBig base ds = fromBig base rest := by
    conv_lhs => rw [hsplit]
    exact fromBig_replicate base _ rest
  have hback : fromBig base' (base'.digits (fromBig base ds)).reverse = fromBig base ds := by
    rw [fromBig_eq, List.reverse_reverse, Nat.ofDigits_digits]
  rw [recode, recode, leadingZeros_replicate _ _ (head_reverse_digits _), fromBig_replicate, hback,
    hvalue, digits_fromBig hbase hrest hhead, ← hsplit]

theorem recode_lt {base base' : Nat} (hbase' : 1 < base') (ds : List Nat) :
    ∀ d ∈ recode base base' ds, d < base' := by
  intro d hd
  rcases List.mem_append.mp hd with hzero | hdigit
  · rw [List.eq_of_mem_replicate hzero]
    exact Nat.zero_lt_of_lt hbase'
  · exact Nat.digits_lt_base hbase' (List.mem_reverse.mp hdigit)

theorem leadingZeros_recode {base base' : Nat} (ds : List Nat) :
    leadingZeros (recode base base' ds) = leadingZeros ds :=
  leadingZeros_replicate _ _ (head_reverse_digits _)

/-- A text without leading zeros is as long as its number has digits. -/
theorem length_recode_le {base base' k l : Nat} (hbase : 1 < base) (hbase' : 1 < base')
    {ds : List Nat} (hlt : ∀ d ∈ ds, d < base) (hzeros : leadingZeros ds = 0)
    (hlen : ds.length ≤ k) (hpow : base ^ k ≤ base' ^ l) :
    (recode base base' ds).length ≤ l := by
  have hnum : fromBig base ds < base' ^ l := by
    rw [fromBig_eq]
    refine lt_of_lt_of_le (Nat.ofDigits_lt_base_pow_length hbase
      fun d hd => hlt d (List.mem_reverse.mp hd)) ?_
    rw [List.length_reverse]
    exact (Nat.pow_le_pow_right (Nat.zero_lt_of_lt hbase) hlen).trans hpow
  rw [recode, hzeros, List.replicate_zero, List.nil_append, List.length_reverse]
  exact (Nat.digits_length_le_iff hbase' _).mpr hnum

end Secdogie
