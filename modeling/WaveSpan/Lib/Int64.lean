/-
WaveSpan.Lib.Int64 — machine integers that do not wrap.

An operation on 64-bit signed integers is the one on the integers wherever the result fits.
-/
import Mathlib.Data.Int.Basic
import Mathlib.Algebra.Group.Int.Defs

namespace WaveSpan

theorem toInt_add_exact {a b : Int64} (hl : -2 ^ 63 ≤ a.toInt + b.toInt)
    (hr : a.toInt + b.toInt < 2 ^ 63) : (a + b).toInt = a.toInt + b.toInt := by
  rw [Int64.toInt_add]
  exact Int.bmod_eq_of_le (by omega) (by omega)

theorem toInt_sub_exact {a b : Int64} (hl : -2 ^ 63 ≤ a.toInt - b.toInt)
    (hr : a.toInt - b.toInt < 2 ^ 63) : (a - b).toInt = a.toInt - b.toInt := by
  rw [Int64.toInt_sub]
  exact Int.bmod_eq_of_le (by omega) (by omega)

theorem toInt_mul_exact {a b : Int64} (hl : -2 ^ 63 ≤ a.toInt * b.toInt)
    (hr : a.toInt * b.toInt < 2 ^ 63) : (a * b).toInt = a.toInt * b.toInt := by
  rw [Int64.toInt_mul]
  exact Int.bmod_eq_of_le (by omega) (by omega)

theorem toInt_div_exact {a b : Int64} (ha : 0 ≤ a.toInt) : (a / b).toInt = a.toInt / b.toInt := by
  rw [Int64.toInt_div_of_ne_left _ _ fun h => by rw [h] at ha; exact absurd ha (by decide),
    Int.tdiv_eq_ediv_of_nonneg ha]

theorem pos_iff_toInt {a : Int64} : a > 0 ↔ 0 < a.toInt := by
  rw [gt_iff_lt, Int64.lt_iff_toInt_lt, Int64.toInt_zero]

/-- A number that is not negative has the same bits as an unsigned one. -/
theorem toNat_toUInt64 {n : Int64} (h : 0 ≤ n.toInt) : (n.toUInt64.toNat : Int) = n.toInt := by
  have hlt := n.toUInt64.toNat_lt
  have hint : n.toInt =
      if 2 * n.toUInt64.toNat < 2 ^ 64 then (n.toUInt64.toNat : Int)
      else n.toUInt64.toNat - 2 ^ 64 :=
    BitVec.toInt_eq_toNat_cond n.toBitVec
  split at hint <;> omega

end WaveSpan
