import Mathlib.Data.List.Basic

/-!
# Order statistics by counting

An element of a sorted list exceeds a bound exactly when enough elements do.
-/

set_option linter.unusedSectionVars false

namespace OrderStatistic

open List

variable {V : Type} [LE V] [LT V] [DecidableLT V] [Std.IsLinearOrder V] [Std.LawfulOrderLT V]
variable {xs ys : List V} {i j : Nat} {x y : V}

def above (t : V) (xs : List V) : Nat := xs.countP (t < ·)

theorem above_append (t : V) (xs ys : List V) : above t (xs ++ ys) = above t xs + above t ys :=
  countP_append

theorem above_perm {t : V} (h : xs.Perm ys) : above t xs = above t ys := h.countP_eq _

theorem above_le_length (t : V) (xs : List V) : above t xs ≤ xs.length := countP_le_length

theorem above_replicate {t m : V} (h : m ≤ t) (k : Nat) : above t (List.replicate k m) = 0 := by
  apply countP_eq_zero.mpr
  intro x hx
  rw [eq_of_mem_replicate hx]
  simpa using Std.not_lt.mpr h

theorem lt_iff_above (hs : xs.Pairwise (· ≤ ·)) (h : xs[i]? = some x) (t : V) : t < x ↔ xs.length - i ≤ above t xs := by
  obtain ⟨hi, hx⟩ := List.getElem?_eq_some_iff.mp h
  have hp : above t xs = above t (xs.take i) + above t (xs.drop i) := by
    rw [← above_append, take_append_drop]
  constructor
  · intro ht
    -- everything from `i` on exceeds the bound
    have ha : above t (xs.drop i) = (xs.drop i).length := by
      apply countP_eq_length.mpr
      intro y hy
      obtain ⟨k, hk, hky⟩ := getElem_of_mem hy
      rw [getElem_drop] at hky
      have hle : x ≤ y := by
        by_cases hk0 : k = 0
        · subst hk0
          rw [← hx, ← hky]
          exact Std.IsPreorder.le_refl _
        · rw [← hx, ← hky]
          exact pairwise_iff_getElem.mp hs i (i + k) hi _ (by omega)
      simpa using Std.lt_of_lt_of_le ht hle
    rw [length_drop] at ha
    omega
  · intro hc
    by_contra hnot
    -- nothing up to `i` does
    have hn : above t (xs.take (i + 1)) = 0 := by
      apply countP_eq_zero.mpr
      intro y hy
      obtain ⟨k, hk, hky⟩ := getElem_of_mem hy
      rw [length_take] at hk
      rw [getElem_take] at hky
      have hle : y ≤ x := by
        by_cases hki : k = i
        · subst hki
          rw [← hx, ← hky]
          exact Std.IsPreorder.le_refl _
        · rw [← hx, ← hky]
          exact pairwise_iff_getElem.mp hs k i (by omega) hi (by omega)
      simpa using Std.not_lt.mpr (Std.IsPreorder.le_trans _ _ _ hle (Std.not_lt.mp hnot))
    have hr : above t xs = above t (xs.take (i + 1)) + above t (xs.drop (i + 1)) := by
      rw [← above_append, take_append_drop]
    have hlen := above_le_length t (xs.drop (i + 1))
    rw [length_drop] at hlen
    omega

/-- When no more elements of `ys` than of `xs` exceed any bound from `m` on, one of `ys` is at most
`m`, or the one of `xs` as far from the end. -/
theorem le_of_above {m : V} (hs : xs.Pairwise (· ≤ ·)) (hys : ys.Pairwise (· ≤ ·))
    (ha : ∀ t, m ≤ t → above t ys ≤ above t xs) (hx : xs[j]? = some x) (hy : ys[i]? = some y)
    (hi : xs.length + i ≤ ys.length + j) : y ≤ m ∨ y ≤ x := by
  by_contra hnot
  have hm : m < y := by
    by_contra hle
    exact hnot (Or.inl (Std.not_lt.mp hle))
  have hxy : x < y := by
    by_contra hle
    exact hnot (Or.inr (Std.not_lt.mp hle))
  obtain ⟨t, ht, hxt, hty⟩ : ∃ t, m ≤ t ∧ ¬ t < x ∧ t < y := by
    rcases Std.IsLinearPreorder.le_total m x with hmx | hxm
    · exact ⟨x, hmx, Std.lt_irrefl, hxy⟩
    · exact ⟨m, Std.IsPreorder.le_refl m, Std.not_lt.mpr hxm, hm⟩
  have hc := (lt_iff_above hys hy t).mp hty
  have hf : ¬ xs.length - j ≤ above t xs := fun h => hxt ((lt_iff_above hs hx t).mpr h)
  have hle := ha t ht
  omega

end OrderStatistic
