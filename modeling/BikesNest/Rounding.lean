import Mathlib

/-! Rounding of quotients to the nearest integer, halves upwards, and when a quotient kept to
finitely many digits still rounds as the exact one does. -/

namespace Rounding

/-- The integer nearest to `a / b`. -/
def roundDiv (a b : ℕ) : ℕ := (2 * a + b) / (2 * b)

theorem roundDiv_eq_iff {a b h : ℕ} (hb : 0 < b) :
    roundDiv a b = h ↔ 2 * h * b ≤ 2 * a + b ∧ 2 * a + b < 2 * (h + 1) * b := by
  rw [roundDiv, Nat.div_eq_iff (by omega)]
  constructor
  · rintro ⟨h₁, h₂⟩
    have : 2 * a + b < h * (2 * b) + 2 * b := by omega
    constructor <;> nlinarith
  · rintro ⟨h₁, h₂⟩
    constructor
    · nlinarith
    · have : 2 * a + b < h * (2 * b) + 2 * b := by nlinarith
      omega

theorem roundDiv_eq_round {a b : ℕ} (hb : 0 < b) :
    ((roundDiv a b : ℕ) : ℤ) = round ((a : ℚ) / b) := by
  have hb' : (b : ℚ) ≠ 0 := by positivity
  have sum : (a : ℚ) / b + 1 / 2 = ((2 * a + b : ℕ) : ℚ) / ((2 * b : ℕ) : ℚ) := by
    push_cast
    field_simp
  rw [round_eq, sum, Rat.floor_natCast_div_natCast]
  rfl

/-- A quotient kept to `d` parts of a unit, with `d` even and beyond the divisor, is never
carried over the half that the exact quotient stays below. -/
theorem roundDiv_roundDiv {a n e : ℕ} (hn : 0 < n) (hd : n < 2 * e) :
    roundDiv (roundDiv (a * (2 * e)) n) (2 * e) = roundDiv a n := by
  obtain ⟨ha₁, ha₂⟩ := (roundDiv_eq_iff hn).mp (rfl : roundDiv a n = roundDiv a n)
  obtain ⟨hq₁, hq₂⟩ := (roundDiv_eq_iff hn).mp
    (rfl : roundDiv (a * (2 * e)) n = roundDiv (a * (2 * e)) n)
  generalize roundDiv a n = h at ha₁ ha₂ ⊢
  generalize roundDiv (a * (2 * e)) n = q at hq₁ hq₂ ⊢
  rw [roundDiv_eq_iff (by omega)]
  -- both bounds say where `q` lies against the half `(2 * h ± 1) * e`
  have lower : 2 * h * e ≤ q + e := by
    by_contra hlt
    have hlt : q + e + 1 ≤ 2 * h * e := by omega
    have scaled : 2 * h * n * (2 * e) ≤ (2 * a + n) * (2 * e) := Nat.mul_le_mul_right _ ha₁
    have below : (q + e + 1) * (2 * n) ≤ 2 * h * e * (2 * n) := Nat.mul_le_mul_right _ hlt
    nlinarith
  have upper : q + e < 2 * (h + 1) * e := by
    by_contra hge
    have hge : 2 * (h + 1) * e ≤ q + e := by omega
    have scaled : (2 * a + n + 1) * (2 * e) ≤ 2 * (h + 1) * n * (2 * e) :=
      Nat.mul_le_mul_right _ ha₂
    have above : 2 * (h + 1) * e * (2 * n) ≤ (q + e) * (2 * n) := Nat.mul_le_mul_right _ hge
    nlinarith
  constructor <;> nlinarith

end Rounding
