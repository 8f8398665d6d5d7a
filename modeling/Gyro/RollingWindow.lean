import Gyro.LongTermWeight

/-!
# The rolling median over calls

`rolling_median_t` of `uint64_t` (`epee/rolling_median.h`) between calls of `insert` and `clear`, from
whatever its memory held at first.
-/

namespace Gyro

open RollingMedian

inductive WindowOp
  | insert (v : UInt64)
  | clear

def windowStep (s : Rolling UInt64) : WindowOp → Rolling UInt64
  | .insert v => s.insert v
  | .clear => s.clear

/-- The values inserted since the last `clear`. -/
def insertedSince (xs : List UInt64) : WindowOp → List UInt64
  | .insert v => xs ++ [v]
  | .clear => []

/-- The middle of an ordered list, or the mean of the two in the middle, cut off. -/
def middleMean (ys : List UInt64) : ℕ :=
  let n := ys.length
  if n % 2 = 1 then (ys.getD (n / 2) 0).toNat else ((ys.getD (n / 2 - 1) 0).toNat + (ys.getD (n / 2) 0).toNat) / 2

section
variable {s : Rolling UInt64} {xs ys : List UInt64}

theorem windowStep_follows (h : Follows s xs) (op : WindowOp) :
    Follows (windowStep s op) (insertedSince xs op) ∧ (windowStep s op).capacity = s.capacity := by
  cases op with
  | insert v => exact ⟨h.insert v, h.valid.insert_capacity⟩
  | clear => exact ⟨follows_clear h.valid.placed.capacity_pos, rfl⟩

theorem windowRun_follows (h : Follows s xs) (ops : List WindowOp) :
    Follows (ops.foldl windowStep s) (ops.foldl insertedSince xs) ∧ (ops.foldl windowStep s).capacity = s.capacity := by
  induction ops generalizing s xs with
  | nil => exact ⟨h, rfl⟩
  | cons op ops ih =>
    obtain ⟨hf, hc⟩ := windowStep_follows h op
    rw [← hc]
    exact ih hf

theorem rollingMedian_toNat (h : Follows s xs) (hn : xs ≠ [])
    (hf : (window s.capacity xs).Pairwise fun x y => x.toNat + y.toNat < 2 ^ 64)
    (hs : ys.Pairwise (· ≤ ·)) (hp : ys.Perm (window s.capacity xs)) : (rollingMedian s).toNat = middleMean ys := by
  have hlen : ys.length = s.sz := by rw [hp.length_eq, window_length, h.sz_eq]
  have hpo : 0 < s.sz := by
    have hc := h.valid.placed.capacity_pos
    have hx := List.length_pos_iff.mpr hn
    rw [h.sz_eq]
    omega
  obtain ⟨hmi, hl⟩ := h.valid.middle hpo hs (by rwa [h.content])
  have hmn := h.valid.placed.minCt_eq
  have ha := h.valid.placed.maxCt_eq
  unfold rollingMedian middleMean
  rw [hlen]
  by_cases ho : s.sz % 2 = 1
  · rw [if_neg (by omega), if_pos ho, List.getD_eq_getElem?_getD, hmi, Option.getD_some]
  · have ht : s.minCt < s.maxCt := by omega
    have hx : (s.val (-1)).toNat + (s.val 0).toNat < 2 ^ 64 := by
      rw [← hp.pairwise_iff (fun h => by omega)] at hf
      obtain ⟨hi, hl⟩ := List.getElem?_eq_some_iff.mp (hl ht)
      obtain ⟨hj, hmi⟩ := List.getElem?_eq_some_iff.mp hmi
      rw [← hl, ← hmi]
      exact List.pairwise_iff_getElem.mp hf _ _ hi hj (by omega)
    rw [Nat.add_comm] at hx
    rw [if_pos ht, if_neg ho, List.getD_eq_getElem?_getD, List.getD_eq_getElem?_getD, hmi, hl ht, UInt64.toNat_div,
      UInt64.toNat_add, Nat.mod_eq_of_lt hx, Nat.add_comm]
    rfl

end

/-- After any calls that leave a value, the median is that of the last values, and the size their number. -/
theorem rolling_median_exact (s : Rolling UInt64) (hN : 1 ≤ s.capacity) (ops : List WindowOp) (ys : List UInt64)
    (hne : ops.foldl insertedSince [] ≠ [])
    (hfit : (window s.capacity (ops.foldl insertedSince [])).Pairwise fun x y => x.toNat + y.toNat < 2 ^ 64)
    (hs : ys.Pairwise (· ≤ ·)) (hp : ys.Perm (window s.capacity (ops.foldl insertedSince []))) :
    (rollingMedian (ops.foldl windowStep s.clear)).toNat = middleMean ys ∧
      (ops.foldl windowStep s.clear).sz = min s.capacity (ops.foldl insertedSince []).length := by
  obtain ⟨hf, hc⟩ := windowRun_follows (follows_clear hN) ops
  have hc' : (ops.foldl windowStep s.clear).capacity = s.capacity := hc
  constructor
  · apply rollingMedian_toNat hf hne
    · rwa [hc']
    · exact hs
    · rwa [hc']
  · rw [hf.sz_eq, hc']

theorem rolling_median_exact_of_three :
    (rollingMedian ([.insert 9, .clear, .insert 7, .insert 1, .insert 4].foldl windowStep (Rolling.empty 2 5).clear)).toNat = 2 ∧
      ([.insert 9, .clear, .insert 7, .insert 1, .insert 4].foldl windowStep (Rolling.empty 2 5).clear).sz = 2 :=
  rolling_median_exact (Rolling.empty 2 5) (by decide) [.insert 9, .clear, .insert 7, .insert 1, .insert 4] [1, 4] (by decide)
    (by decide) (by decide) (by decide)

end Gyro
