import Mathlib.Algebra.GroupWithZero.Nat
import Mathlib.Algebra.Order.BigOperators.Group.List
import Mathlib.Algebra.Order.Group.Nat
import Mathlib.Data.List.Perm.Subperm

/-!
# Sums of machine words

A loop that adds words gives their sum as long as that fits, and one that compares each
partial sum with the one before finds out whether it does.
-/

namespace WordSum

def total (xs : List UInt64) : Nat := (xs.map UInt64.toNat).sum

@[simp] theorem total_nil : total [] = 0 := rfl

@[simp] theorem total_cons (x : UInt64) (xs : List UInt64) : total (x :: xs) = x.toNat + total xs := rfl

@[simp] theorem total_append (xs ys : List UInt64) : total (xs ++ ys) = total xs + total ys := by
  simp [total]

theorem add_toNat {a b : UInt64} (h : a.toNat + b.toNat < 2 ^ 64) : (a + b).toNat = a.toNat + b.toNat := by
  rw [UInt64.toNat_add, Nat.mod_eq_of_lt h]

theorem foldl_add_mod (xs : List UInt64) (acc : UInt64) :
    (xs.foldl (· + ·) acc).toNat = (acc.toNat + total xs) % 2 ^ 64 := by
  induction xs generalizing acc with
  | nil =>
    rw [total_nil, Nat.add_zero, Nat.mod_eq_of_lt acc.toNat_lt]
    rfl
  | cons x xs ih =>
    rw [List.foldl_cons, ih, UInt64.toNat_add, total_cons]
    omega

theorem foldl_add_le (xs : List UInt64) (acc : UInt64) : (xs.foldl (· + ·) acc).toNat ≤ acc.toNat + total xs := by
  rw [foldl_add_mod]
  exact Nat.mod_le _ _

variable {xs : List UInt64}

theorem foldl_add_toNat {acc : UInt64} (h : acc.toNat + total xs < 2 ^ 64) :
    (xs.foldl (· + ·) acc).toNat = acc.toNat + total xs := by
  rw [foldl_add_mod, Nat.mod_eq_of_lt h]

theorem sum_toNat (h : total xs < 2 ^ 64) : (xs.foldl (· + ·) 0).toNat = total xs := by
  have hzero : (0 : UInt64).toNat + total xs = total xs := Nat.zero_add _
  rw [foldl_add_toNat (by omega), hzero]

theorem le_add_iff {a b : UInt64} : b ≤ a + b ↔ b.toNat + a.toNat < 2 ^ 64 := by
  have ha := a.toNat_lt
  rw [UInt64.le_iff_toNat_le, UInt64.toNat_add]
  omega

/-- Comparing every partial sum with the one before tells whether the sum fits. -/
theorem foldl_check {ok : Bool} {acc : UInt64} :
    (xs.foldl (fun (s : Bool × UInt64) x => (s.1 && decide (s.2 ≤ x + s.2), s.2 + x)) (ok, acc)).1 =
      true ↔ ok = true ∧ acc.toNat + total xs < 2 ^ 64 := by
  induction xs generalizing ok acc with
  | nil => simp [acc.toNat_lt]
  | cons x xs ih =>
    rw [List.foldl_cons, ih, Bool.and_eq_true, decide_eq_true_eq, le_add_iff, UInt64.toNat_add, total_cons, and_assoc]
    apply and_congr_right
    intro _
    dsimp only
    omega

variable {α : Type*} {f : α → Nat}

theorem sum_le_of_nodup {xs ys : List α} (hn : xs.Nodup) (hs : ∀ x ∈ xs, x ∈ ys) : (xs.map f).sum ≤ (ys.map f).sum := by
  obtain ⟨zs, hp, hb⟩ := hn.subperm hs
  rw [← (hp.map f).sum_eq]
  exact (hb.map f).sum_le_sum fun _ _ => Nat.zero_le _

end WordSum
