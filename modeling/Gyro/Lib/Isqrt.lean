import Mathlib.Tactic.Ring
import Mathlib.Tactic.Linarith

/-!
# Integer square root, digit by digit

The root is built from its highest binary digit down, so that it evaluates by structural
recursion.
-/

namespace IntegerRoot

def isqrtFrom (n : Nat) : Nat → Nat → Nat
  | 0, r => r
  | bits + 1, r =>
    let c := r + 2 ^ bits
    if c * c ≤ n then isqrtFrom n bits c else isqrtFrom n bits r

def isqrt (bits n : Nat) : Nat := isqrtFrom n bits 0

theorem isqrtFrom_spec {n : Nat} : ∀ {bits r : Nat}, r * r ≤ n → n < (r + 2 ^ bits) * (r + 2 ^ bits) →
    isqrtFrom n bits r * isqrtFrom n bits r ≤ n ∧ n < (isqrtFrom n bits r + 1) * (isqrtFrom n bits r + 1)
  | 0, r, hl, hh => by simpa [isqrtFrom] using And.intro hl hh
  | bits + 1, r, hl, hh => by
    simp only [isqrtFrom]
    split
    · rename_i hc
      refine isqrtFrom_spec hc ?_
      have hp : r + 2 ^ bits + 2 ^ bits = r + 2 ^ (bits + 1) := by ring
      rw [hp]
      exact hh
    · rename_i hc
      exact isqrtFrom_spec hl (Nat.lt_of_not_le hc)

variable {bits n : Nat}

theorem isqrt_spec (h : n < 4 ^ bits) :
    isqrt bits n * isqrt bits n ≤ n ∧ n < (isqrt bits n + 1) * (isqrt bits n + 1) := by
  refine isqrtFrom_spec (Nat.zero_le n) ?_
  have hp : (0 + 2 ^ bits) * (0 + 2 ^ bits) = 4 ^ bits := by
    rw [Nat.zero_add, ← Nat.mul_pow]
  rw [hp]
  exact h

theorem isqrt_eq_sqrt (h : n < 4 ^ bits) : isqrt bits n = Nat.sqrt n := by
  obtain ⟨hl, hh⟩ := isqrt_spec h
  exact Nat.eq_sqrt.mpr ⟨hl, hh⟩

theorem isqrt_lt_iff {bits n a : Nat} (h : n < 4 ^ bits) : isqrt bits n < a ↔ n < a * a := by
  rw [isqrt_eq_sqrt h]
  exact Nat.sqrt_lt

theorem isqrt_lt_two_pow (h : n < 4 ^ bits) : isqrt bits n < 2 ^ bits := by
  rw [isqrt_lt_iff h, ← Nat.mul_pow]
  exact h

end IntegerRoot
