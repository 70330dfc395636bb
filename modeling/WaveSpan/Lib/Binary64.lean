/-
WaveSpan.Lib.Binary64 — the numbers that 64-bit floats stand for.

A float is its 64 bits: the sign, eleven bits of exponent and a fraction of 52. `value` is the
number, as an extended rational. Without the sign the bits grow with the number, over subnormals,
normals and infinity (`scaled_strictMono`, in units of the least subnormal), so two floats compare
like their bits taken with the sign (`value_lt_iff`). The two zeros have different bits and one
place.
-/
import Mathlib.Order.WithBot
import Mathlib.Order.Monotone.Basic
import Mathlib.Algebra.Order.Field.Power
import Mathlib.Algebra.Order.Ring.Rat
import Mathlib.Tactic.Ring
import Mathlib.Tactic.Positivity

namespace WaveSpan.Binary64

def exponent (x : UInt64) : Nat := x.toNat / 2 ^ 52 % 2 ^ 11

def fraction (x : UInt64) : Nat := x.toNat % 2 ^ 52

def IsNaN (x : UInt64) : Prop := exponent x = 2047 ∧ fraction x ≠ 0

/-- The size of a finite float: subnormal with exponent 0, normal otherwise. -/
def magnitude (x : UInt64) : ℚ :=
  if exponent x = 0 then (fraction x : ℚ) / 2 ^ 52 * 2 ^ (-1022 : ℤ)
  else (1 + (fraction x : ℚ) / 2 ^ 52) * 2 ^ ((exponent x : ℤ) - 1023)

/-- The number a float stands for, if it is one. -/
def value (x : UInt64) : WithBot (WithTop ℚ) :=
  if exponent x = 2047 then if 2 ^ 63 ≤ x.toNat then ⊥ else ((⊤ : WithTop ℚ) : WithBot (WithTop ℚ))
  else ((if 2 ^ 63 ≤ x.toNat then -magnitude x else magnitude x : ℚ) : WithTop ℚ)

/-! ## The order of the bits -/

/-- The bits without the sign, counted from zero away from it. -/
def place (x : UInt64) : ℤ :=
  if 2 ^ 63 ≤ x.toNat then -((x.toNat - 2 ^ 63 : ℕ) : ℤ) else x.toNat

/-- The number at a place in units of the least subnormal. -/
def scaled (m : Nat) : Nat :=
  if m / 2 ^ 52 = 0 then m % 2 ^ 52 else (2 ^ 52 + m % 2 ^ 52) * 2 ^ (m / 2 ^ 52 - 1)

/-- Magnitudes grow with the place. -/
theorem scaled_strictMono : StrictMono scaled := by
  refine strictMono_nat_of_lt_succ fun m => ?_
  unfold scaled
  rcases Nat.lt_or_ge (m % 2 ^ 52 + 1) (2 ^ 52) with hlt | hge
  · rw [show (m + 1) / 2 ^ 52 = m / 2 ^ 52 by omega, show (m + 1) % 2 ^ 52 =
      m % 2 ^ 52 + 1 by omega]
    split
    · exact Nat.lt_succ_self _
    · exact Nat.mul_lt_mul_of_pos_right (by omega) (Nat.two_pow_pos _)
  · -- the fraction is full and the exponent takes the carry
    rw [show (m + 1) / 2 ^ 52 = m / 2 ^ 52 + 1 by omega, show (m + 1) % 2 ^ 52 = 0 by omega,
      if_neg (Nat.succ_ne_zero _), Nat.add_sub_cancel, Nat.add_zero]
    split
    · rename_i hzero
      rw [hzero]
      omega
    · obtain ⟨e, he⟩ : ∃ e, m / 2 ^ 52 = e + 1 := ⟨m / 2 ^ 52 - 1, by omega⟩
      rw [he, Nat.add_sub_cancel, Nat.pow_succ' (n := e), ← Nat.mul_assoc]
      exact Nat.mul_lt_mul_of_pos_right (by omega) (Nat.two_pow_pos _)

def signed (p : ℤ) : ℤ := if p < 0 then -(scaled p.natAbs : ℤ) else scaled p.natAbs

theorem signed_natCast (m : ℕ) : signed m = scaled m := by
  rw [signed, if_neg (by omega), Int.natAbs_natCast]

theorem signed_neg (m : ℕ) : signed (-m) = -scaled m := by
  rcases Nat.eq_zero_or_pos m with rfl | hpos
  · rfl
  · rw [signed, if_pos (by omega), Int.natAbs_neg, Int.natAbs_natCast]

theorem signed_lt {p q : ℤ} (h : p < q) : signed p < signed q := by
  have hmono {a b : ℕ} : scaled a < scaled b ↔ a < b := scaled_strictMono.lt_iff_lt
  have hpos : ∀ {a : ℕ}, 0 < a → 0 < scaled a := fun ha => Nat.zero_lt_of_lt (hmono.mpr ha)
  unfold signed
  split <;> split
  · have := hmono.mpr (show q.natAbs < p.natAbs by omega)
    omega
  · have := hpos (show 0 < p.natAbs by omega)
    omega
  · omega
  · have := hmono.mpr (show p.natAbs < q.natAbs by omega)
    omega

def infinity : ℤ := 2047 * 2 ^ 52

def atPlace (p : ℤ) : WithBot (WithTop ℚ) :=
  if p ≤ -infinity then ⊥
  else if infinity ≤ p then ((⊤ : WithTop ℚ) : WithBot (WithTop ℚ))
  else (((signed p : ℚ) * 2 ^ (-1074 : ℤ) : ℚ) : WithTop ℚ)

theorem atPlace_lt {p q : ℤ} (hp : -infinity ≤ p) (hq : q ≤ infinity) (h : p < q) :
    atPlace p < atPlace q := by
  unfold atPlace
  have hpi : ¬ infinity ≤ p := by omega
  have hqi : ¬ q ≤ -infinity := by omega
  rw [if_neg hqi, if_neg hpi]
  split
  · split
    · exact WithBot.bot_lt_coe _
    · exact WithBot.bot_lt_coe _
  · split
    · exact WithBot.coe_lt_coe.mpr (WithTop.coe_lt_top _)
    · refine WithBot.coe_lt_coe.mpr (WithTop.coe_lt_coe.mpr ?_)
      exact mul_lt_mul_of_pos_right (Int.cast_lt.mpr (signed_lt h)) (by positivity)

/-! ## Floats and their places -/

section
variable {x y : UInt64}

theorem exponent_eq (x : UInt64) : exponent x = x.toNat % 2 ^ 63 / 2 ^ 52 := by
  unfold exponent
  omega

theorem fraction_eq (x : UInt64) : fraction x = x.toNat % 2 ^ 63 % 2 ^ 52 := by
  unfold fraction
  omega

/-- The magnitude in units of the least. -/
theorem magnitude_eq (x : UInt64) :
    magnitude x = (scaled (x.toNat % 2 ^ 63) : ℚ) * 2 ^ (-1074 : ℤ) := by
  have hunit : (2 : ℚ) ^ (-1022 : ℤ) = 2 ^ 52 * 2 ^ (-1074 : ℤ) := by
    rw [← zpow_natCast, ← zpow_add₀ two_ne_zero]
    rfl
  rw [magnitude, scaled, ← exponent_eq, ← fraction_eq]
  split
  · rw [hunit]
    ring
  · rename_i he
    obtain ⟨e, hsucc⟩ : ∃ e, exponent x = e + 1 := ⟨exponent x - 1, by omega⟩
    have hpow : (2 : ℚ) ^ (((e + 1 : ℕ) : ℤ) - 1023) = 2 ^ e * (2 ^ 52 * 2 ^ (-1074 : ℤ)) := by
      rw [← hunit, ← zpow_natCast, ← zpow_add₀ two_ne_zero]
      congr 1
      push_cast
      ring
    rw [hsucc, hpow, Nat.add_sub_cancel]
    generalize (2 : ℚ) ^ (-1074 : ℤ) = unit
    push_cast
    ring

theorem place_bounds (h : ¬ IsNaN x) : -infinity ≤ place x ∧ place x ≤ infinity := by
  have hlt := x.toNat_lt
  rw [IsNaN, exponent_eq, fraction_eq] at h
  unfold place infinity
  split <;> omega

theorem value_eq (x : UInt64) : value x = atPlace (place x) := by
  have hlt := x.toNat_lt
  have hexp := exponent_eq x
  by_cases hneg : 2 ^ 63 ≤ x.toNat
  · have hplace : place x = -((x.toNat % 2 ^ 63 : ℕ) : ℤ) := by
      rw [place, if_pos hneg]
      omega
    rw [value, atPlace, if_pos hneg, if_pos hneg, hplace, signed_neg, magnitude_eq]
    unfold infinity
    by_cases hinf : exponent x = 2047
    · rw [if_pos hinf, if_pos (by omega)]
    · rw [if_neg hinf, if_neg (by omega), if_neg (by omega), Int.cast_neg,
        Int.cast_natCast, neg_mul]
  · have hplace : place x = ((x.toNat % 2 ^ 63 : ℕ) : ℤ) := by
      rw [place, if_neg hneg]
      omega
    rw [value, atPlace, if_neg hneg, if_neg hneg, hplace, signed_natCast, magnitude_eq]
    unfold infinity
    by_cases hinf : exponent x = 2047
    · rw [if_pos hinf, if_neg (by omega), if_pos (by omega)]
    · rw [if_neg hinf, if_neg (by omega), if_neg (by omega), Int.cast_natCast]

/-- Numbers compare as their places. -/
theorem value_lt_iff (hx : ¬ IsNaN x) (hy : ¬ IsNaN y) : value x < value y ↔ place x < place y := by
  rw [value_eq, value_eq]
  refine ⟨fun h => ?_, atPlace_lt (place_bounds hx).1 (place_bounds hy).2⟩
  by_contra hge
  rcases (not_lt.mp hge).lt_or_eq with hlt | heq
  · exact lt_asymm h (atPlace_lt (place_bounds hy).1 (place_bounds hx).2 hlt)
  · exact lt_irrefl _ (heq ▸ h)

end

end WaveSpan.Binary64
