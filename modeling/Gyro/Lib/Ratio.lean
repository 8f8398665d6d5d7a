import Mathlib.Tactic.Positivity

/-!
# Comparing fractions by scaled quotients

Two fractions are compared by multiplying both with one number and cutting off the
quotients. This can miss a difference but never inverts it.
-/

namespace Ratio

theorem mul_lt_of_scaled_div_lt {k a b c d : Nat} (hb : 0 < b) (hd : 0 < d)
    (h : k * a / b < k * c / d) : a * d < c * b := by
  by_contra hle
  have hle : c * b ≤ a * d := Nat.not_lt.mp hle
  have hs : k * c / d * b ≤ k * a := by
    have hq : k * c / d * d ≤ k * c := Nat.div_mul_le_self _ _
    have hc : k * c / d * b * d ≤ k * a * d := by
      calc k * c / d * b * d = k * c / d * d * b := by ac_rfl
        _ ≤ k * c * b := Nat.mul_le_mul_right b hq
        _ = k * (c * b) := by ac_rfl
        _ ≤ k * (a * d) := Nat.mul_le_mul_left k hle
        _ = k * a * d := by ac_rfl
    exact Nat.le_of_mul_le_mul_right hc hd
  have ha : k * c / d ≤ k * a / b := (Nat.le_div_iff_mul_le hb).mpr hs
  omega

/-- A smaller cut-off quotient means a smaller fraction. -/
theorem div_lt_div_of_scaled {k a b c d : Nat} (hb : 0 < b) (hd : 0 < d)
    (h : k * a / b < k * c / d) : (a : ℚ) / b < (c : ℚ) / d := by
  have hc : a * d < c * b := mul_lt_of_scaled_div_lt hb hd h
  have hq : (0 : ℚ) < b := by exact_mod_cast hb
  have hdq : (0 : ℚ) < d := by exact_mod_cast hd
  rw [div_lt_div_iff₀ hq hdq]
  exact_mod_cast hc

end Ratio
