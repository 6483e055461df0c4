/-
# `Secdogie.Lib.BigEndian` — numbers in a fixed number of bytes

The most significant byte first.  A number that fits is read back (`ofBE_toBE`),
whatever stands after it.
-/
import Mathlib

namespace Secdogie

/-- A number in `w` bytes, as far as it fits. -/
def toBE : ℕ → ℕ → List UInt8
  | 0, _ => []
  | w + 1, n => UInt8.ofNat (n / 256 ^ w) :: toBE w (n % 256 ^ w)

def ofBE : List UInt8 → ℕ
  | [] => 0
  | b :: bs => b.toNat * 256 ^ bs.length + ofBE bs

@[simp] theorem length_toBE : ∀ w n : ℕ, (toBE w n).length = w
  | 0, _ => rfl
  | w + 1, n => by rw [toBE, List.length_cons, length_toBE w]

theorem ofBE_toBE : ∀ {w n : ℕ}, n < 256 ^ w → ofBE (toBE w n) = n
  | 0, n, h => (Nat.lt_one_iff.mp h).symm
  | w + 1, n, h => by
      have hpos : 0 < 256 ^ w := Nat.pow_pos (by omega)
      have hbyte : n / 256 ^ w < 256 := by
        rw [Nat.div_lt_iff_lt_mul hpos, ← Nat.pow_succ']
        exact h
      rw [toBE, ofBE, length_toBE, ofBE_toBE (Nat.mod_lt n hpos), UInt8.toNat_ofNat_of_lt' hbyte,
        Nat.mul_comm]
      exact Nat.div_add_mod n (256 ^ w)

theorem ofBE_lt : ∀ bs : List UInt8, ofBE bs < 256 ^ bs.length
  | [] => Nat.one_pos
  | b :: bs => by
      have hbyte : b.toNat < 256 := b.toNat_lt
      have ih := ofBE_lt bs
      rw [ofBE, List.length_cons, Nat.pow_succ']
      calc b.toNat * 256 ^ bs.length + ofBE bs
          < b.toNat * 256 ^ bs.length + 256 ^ bs.length := Nat.add_lt_add_left ih _
        _ = (b.toNat + 1) * 256 ^ bs.length := by ring
        _ ≤ 256 * 256 ^ bs.length := Nat.mul_le_mul_right _ hbyte

variable {w n : ℕ} {rest : List UInt8}

/-- Reading what was written, with more after it. -/
theorem ofBE_take_toBE (h : n < 256 ^ w) : ofBE ((toBE w n ++ rest).take w) = n := by
  rw [List.take_append_of_le_length (length_toBE w n).ge, List.take_of_length_le (length_toBE w n).le,
    ofBE_toBE h]

theorem drop_toBE : (toBE w n ++ rest).drop w = rest := by
  rw [List.drop_append_of_le_length (length_toBE w n).ge, List.drop_of_length_le (length_toBE w n).le,
    List.nil_append]

end Secdogie
