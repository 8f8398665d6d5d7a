import Gyro.SpinEnergy

/-!
# The running means of the spinner data

`get_spinner_data` carries weighted means. Product and sum of weights are formed in 64
bits; where both fit, the mean is the true one and lies between its parts.
-/

namespace Gyro

def weighted (a u b v : Nat) : Nat := (a * u + b * v) / (u + v)

theorem weighted_between {a u b v : Nat} (h : 0 < u + v) : min a b ≤ weighted a u b v ∧ weighted a u b v ≤ max a b := by
  have hl : min a b * (u + v) ≤ a * u + b * v := by
    rw [Nat.mul_add]
    exact Nat.add_le_add (Nat.mul_le_mul_right u (Nat.min_le_left a b)) (Nat.mul_le_mul_right v (Nat.min_le_right a b))
  have hh : a * u + b * v ≤ (u + v) * max a b := by
    rw [Nat.add_mul, Nat.mul_comm a u, Nat.mul_comm b v]
    exact Nat.add_le_add (Nat.mul_le_mul_left u (Nat.le_max_left a b)) (Nat.mul_le_mul_left v (Nat.le_max_right a b))
  exact ⟨(Nat.le_div_iff_mul_le h).mpr hl, Nat.div_le_of_le_mul hh⟩

def IsMean (result : Except Stop UInt64) (a u b v : Nat) : Prop :=
  ∃ mean, result = .ok mean ∧ mean.toNat = weighted a u b v ∧ min a b ≤ mean.toNat ∧ mean.toNat ≤ max a b

section
open Exits
variable {cfg : Config} {mean count x : UInt64}

theorem isMean_iff {result : Except Stop UInt64} {a u b v : Nat} (h : 0 < u + v) :
    IsMean result a u b v ↔ ∃ mean, result = .ok mean ∧ mean.toNat = weighted a u b v := by
  constructor
  · rintro ⟨mean, ho, hv, -⟩
    exact ⟨mean, ho, hv⟩
  · rintro ⟨mean, ho, hv⟩
    refine ⟨mean, ho, hv, ?_⟩
    rw [hv]
    exact weighted_between h

theorem div_wrapped_ne {a d k : Nat} (hd : 0 < d) (hl : d < 2 ^ 64) (hk : 1 ≤ k) (ha : k * 2 ^ 64 ≤ a) :
    (a - k * 2 ^ 64) / d ≠ a / d := by
  have hs : (a - k * 2 ^ 64) / d + 1 ≤ a / d := by
    rw [← Nat.add_div_right _ hd]
    exact Nat.div_le_div_right (by omega)
  omega

theorem runningMean_eq (hme : 0 < mean) (hp : 0 < (count.toNat + cfg.spinnerCountPrecision.toNat) % 2 ^ 64) :
    ∃ q, runningMean cfg mean count x = .ok q ∧
      q.toNat = (mean.toNat * count.toNat + x.toNat * cfg.spinnerCountPrecision.toNat % 2 ^ 64) /
        ((count.toNat + cfg.spinnerCountPrecision.toNat) % 2 ^ 64) % 2 ^ 64 := by
  have hm := mean.toNat_lt
  have hc := count.toNat_lt
  have hg : (wide (count + cfg.spinnerCountPrecision)).toNat =
      (count.toNat + cfg.spinnerCountPrecision.toNat) % 2 ^ 64 := by
    rw [toNat_wide, UInt64.toNat_add]
  have hd : (wide mean * wide count + wide (x * cfg.spinnerCountPrecision)).toNat =
      mean.toNat * count.toNat + x.toNat * cfg.spinnerCountPrecision.toNat % 2 ^ 64 := by
    have hr : (wide mean * wide count).toNat = mean.toNat * count.toNat := by
      rw [BitVec.toNat_mul_of_lt, toNat_wide, toNat_wide]
      rw [toNat_wide, toNat_wide]
      nlinarith
    have hl := (x * cfg.spinnerCountPrecision).toNat_lt
    rw [BitVec.toNat_add, hr, toNat_wide, Nat.mod_eq_of_lt (by nlinarith), UInt64.toNat_mul]
  refine ⟨_, (if_pos hme).trans (bind_eq_ok.mpr ⟨_, if_neg ?_, rfl⟩), ?_⟩
  · intro hzero
    rw [hzero] at hg
    exact absurd hg (Nat.ne_of_lt hp)
  · show ((_ : BitVec 128).setWidth 64).toNat = _
    rw [BitVec.toNat_setWidth, BitVec.toNat_udiv, hd, hg]

theorem runningMean_isMean_iff (hme : 0 < mean) (hp : 0 < count.toNat + cfg.spinnerCountPrecision.toNat)
    (hf : count.toNat + cfg.spinnerCountPrecision.toNat < 2 ^ 64) :
    IsMean (runningMean cfg mean count x) mean.toNat count.toNat x.toNat cfg.spinnerCountPrecision.toNat ↔
      x.toNat * cfg.spinnerCountPrecision.toNat < 2 ^ 64 := by
  have hs := Nat.mod_eq_of_lt hf
  obtain ⟨q, hq, hv⟩ := @runningMean_eq cfg mean count x hme (by rw [hs]; exact hp)
  rw [hs, Nat.mod_eq_of_lt] at hv
  · rw [isMean_iff hp]
    constructor
    · rintro ⟨mean', ho, hm'⟩
      rw [← Except.ok.inj (hq.symm.trans ho), hv] at hm'
      by_contra hb
      have hk := Nat.div_pos (Nat.le_of_not_lt hb) (show 0 < 2 ^ 64 by norm_num)
      apply div_wrapped_ne (a := mean.toNat * count.toNat + x.toNat * cfg.spinnerCountPrecision.toNat)
        hp hf hk (by omega)
      refine Eq.trans ?_ hm'
      congr 1
      omega
    · intro hl
      rw [Nat.mod_eq_of_lt hl] at hv
      exact ⟨q, hq, hv⟩
  · -- the quotient is no greater than the true mean
    have hbound := (@weighted_between mean.toNat count.toNat x.toNat cfg.spinnerCountPrecision.toNat hp).2
    have hle := Nat.mod_le (x.toNat * cfg.spinnerCountPrecision.toNat) (2 ^ 64)
    calc _ ≤ weighted mean.toNat count.toNat x.toNat cfg.spinnerCountPrecision.toNat :=
          Nat.div_le_div_right (Nat.add_le_add_left hle _)
      _ ≤ max mean.toNat x.toNat := hbound
      _ < 2 ^ 64 := max_lt mean.toNat_lt x.toNat_lt

theorem wrapped_weights_falsify (hp : cfg.spinnerCountPrecision = 10) (hwr : 2 ^ 64 ≤ count.toNat + 10) :
    ∃ mean, 0 < mean ∧
      ¬ IsMean (runningMean cfg mean count x) mean.toNat count.toNat x.toNat cfg.spinnerCountPrecision.toNat := by
  by_contra hl
  have ha : ∀ mean, 0 < mean → IsMean (runningMean cfg mean count x) mean.toNat count.toNat x.toNat 10 := by
    intro mean hme
    by_contra hnot
    exact hl ⟨mean, hme, by rw [hp]; exact hnot⟩
  have hc := count.toNat_lt
  have hx := x.toNat_lt
  have hpa := Nat.mod_lt (x.toNat * 10) (show 0 < 2 ^ 64 by norm_num)
  obtain ⟨q₁, hq₁, hv₁, -⟩ := ha 1 (by decide)
  obtain ⟨q₂, hq₂, hv₂, -⟩ := ha 2 (by decide)
  have ho : 0 < (count.toNat + cfg.spinnerCountPrecision.toNat) % 2 ^ 64 := by
    rw [hp]
    apply Nat.pos_of_ne_zero
    intro hzero
    have hn : count + cfg.spinnerCountPrecision = 0 := by
      rw [← UInt64.toNat_inj, hp]
      exact hzero
    have hr : runningMean cfg 1 count x = .error (.fault .divisionByZero) := by
      unfold runningMean
      rw [hn]
      rfl
    rw [hr] at hq₁
    cases hq₁
  obtain ⟨p₁, hp₁, hc₁⟩ := @runningMean_eq cfg 1 count x (by decide) ho
  obtain ⟨p₂, hp₂, hc₂⟩ := @runningMean_eq cfg 2 count x (by decide) ho
  rw [Except.ok.inj (hp₁.symm.trans hq₁), hv₁, hp] at hc₁
  rw [Except.ok.inj (hp₂.symm.trans hq₂), hv₂, hp] at hc₂
  rw [hp] at ho
  change 0 < (count.toNat + 10) % 2 ^ 64 at ho
  change weighted 1 count.toNat x.toNat 10 =
    (1 * count.toNat + x.toNat * 10 % 2 ^ 64) / ((count.toNat + 10) % 2 ^ 64) % 2 ^ 64 at hc₁
  change weighted 2 count.toNat x.toNat 10 =
    (2 * count.toNat + x.toNat * 10 % 2 ^ 64) / ((count.toNat + 10) % 2 ^ 64) % 2 ^ 64 at hc₂
  have hmn : weighted 1 count.toNat x.toNat 10 ≤ weighted 2 count.toNat x.toNat 10 :=
    Nat.div_le_div_right (by omega)
  have hs : weighted 2 count.toNat x.toNat 10 ≤ 12 := by
    apply Nat.div_le_of_le_mul
    omega
  obtain ⟨d, hd⟩ : ∃ d, (count.toNat + 10) % 2 ^ 64 = d := ⟨_, rfl⟩
  rw [hd] at ho hc₁ hc₂
  generalize x.toNat * 10 % 2 ^ 64 = part at hpa hc₁ hc₂
  rcases Nat.lt_or_ge 1 d with hmo | hon
  · -- a small divisor leaves a quotient far above both values
    have hh : (1 * count.toNat + part) / d ≤ (1 * count.toNat + part) / 2 := Nat.div_le_div_left hmo (by norm_num)
    have hlo : (1 * count.toNat + part) / 9 ≤ (1 * count.toNat + part) / d := Nat.div_le_div_left (by omega) ho
    rw [Nat.mod_eq_of_lt (by omega)] at hc₁
    omega
  · have heq : d = 1 := by omega
    rw [heq] at hc₁ hc₂
    omega

def meanWeight (cfg : Config) (r : SpinReads) : Nat :=
  1 + 2 * cfg.spinnerCountPrecision.toNat / r.prevData.approximatelyCount.toNat

/-- The mean interval is true exactly when the weighted sum fits its word. -/
theorem computeMediumInterval_isMean_iff {r : SpinReads} (hr : cfg.startAmountBlocks < r.prevuosHeight)
    (hc : r.prevData.approximatelyCount ≠ 0) (hp : 2 * cfg.spinnerCountPrecision.toNat < 2 ^ 64)
    (hwe : meanWeight cfg r + 1 < 2 ^ 64) :
    IsMean (computeMediumInterval cfg r) r.prevData.mediumInterval.toNat (meanWeight cfg r) r.mediumInterval.toNat 1 ↔
      r.prevData.mediumInterval.toNat * meanWeight cfg r + r.mediumInterval.toNat < 2 ^ 64 := by
  have hn : (1 + 2 * cfg.spinnerCountPrecision / r.prevData.approximatelyCount).toNat = meanWeight cfg r := by
    rw [UInt64.toNat_add, UInt64.toNat_div, UInt64.toNat_mul, show (2 : UInt64).toNat = 2 from rfl,
      Nat.mod_eq_of_lt hp]
    exact Nat.mod_eq_of_lt (show meanWeight cfg r < 2 ^ 64 by omega)
  generalize hd : 1 + 2 * cfg.spinnerCountPrecision / r.prevData.approximatelyCount = n at hn
  have hn' : (n + 1).toNat = meanWeight cfg r + 1 := by
    rw [UInt64.toNat_add, hn]
    exact Nat.mod_eq_of_lt hwe
  have hne : n + 1 ≠ 0 := by
    rw [Ne, ← UInt64.toNat_inj, hn']
    exact Nat.succ_ne_zero _
  have ho : computeMediumInterval cfg r =
      .ok ((r.prevData.mediumInterval * n + r.mediumInterval) / (n + 1)) := by
    unfold computeMediumInterval
    rw [if_pos hr]
    refine bind_eq_ok.mpr ⟨_, if_neg hc, ?_⟩
    rw [← hd] at hne ⊢
    exact if_neg hne
  have hv : ((r.prevData.mediumInterval * n + r.mediumInterval) / (n + 1)).toNat =
      (r.prevData.mediumInterval.toNat * meanWeight cfg r + r.mediumInterval.toNat) % 2 ^ 64 /
        (meanWeight cfg r + 1) := by
    rw [UInt64.toNat_div, hn', UInt64.toNat_add, UInt64.toNat_mul, hn, Nat.mod_add_mod]
  rw [isMean_iff (Nat.succ_pos _), ho]
  unfold weighted
  rw [Nat.mul_one]
  generalize r.prevData.mediumInterval.toNat * meanWeight cfg r + r.mediumInterval.toNat = sum at hv ⊢
  constructor
  · rintro ⟨mean, heq, hme⟩
    rw [← Except.ok.inj heq, hv] at hme
    by_contra hb
    have hk := Nat.div_pos (Nat.le_of_not_lt hb) (show 0 < 2 ^ 64 by norm_num)
    apply div_wrapped_ne (a := sum) (Nat.succ_pos _) hwe hk (by omega)
    refine Eq.trans ?_ hme
    congr 1
    omega
  · intro hl
    rw [Nat.mod_eq_of_lt hl] at hv
    exact ⟨_, rfl, hv⟩

/-- The means are true exactly where the weighted value and the sum of the weights fit 64 bits, and
the mean interval where its weighted sum does. -/
theorem running_means_true (cfg : Config) (count x : UInt64) : (0 < count.toNat + cfg.spinnerCountPrecision.toNat →
      count.toNat + cfg.spinnerCountPrecision.toNat < 2 ^ 64 → ∀ mean, 0 < mean →
      (IsMean (runningMean cfg mean count x) mean.toNat count.toNat x.toNat cfg.spinnerCountPrecision.toNat ↔
        x.toNat * cfg.spinnerCountPrecision.toNat < 2 ^ 64)) ∧ (cfg.spinnerCountPrecision = 10 →
      ((∀ mean, 0 < mean → IsMean (runningMean cfg mean count x) mean.toNat count.toNat x.toNat 10) ↔
        count.toNat + 10 < 2 ^ 64 ∧ x.toNat * 10 < 2 ^ 64)) ∧
    ∀ r : SpinReads, cfg.startAmountBlocks < r.prevuosHeight → r.prevData.approximatelyCount ≠ 0 →
      2 * cfg.spinnerCountPrecision.toNat < 2 ^ 64 → meanWeight cfg r + 1 < 2 ^ 64 →
      (IsMean (computeMediumInterval cfg r) r.prevData.mediumInterval.toNat (meanWeight cfg r)
        r.mediumInterval.toNat 1 ↔
        r.prevData.mediumInterval.toNat * meanWeight cfg r + r.mediumInterval.toNat < 2 ^ 64) := by
  refine ⟨fun ho hf mean hme => runningMean_isMean_iff hme ho hf, ?_,
    fun r hr hc hp hwe =>
      computeMediumInterval_isMean_iff hr hc hp hwe⟩
  intro hp
  have ht : cfg.spinnerCountPrecision.toNat = 10 := by
    rw [hp]
    rfl
  constructor
  · intro ha
    have hf : count.toNat + 10 < 2 ^ 64 := by
      by_contra hwr
      obtain ⟨mean, hme, hnot⟩ := @wrapped_weights_falsify cfg count x hp (Nat.le_of_not_lt hwr)
      rw [ht] at hnot
      exact hnot (ha mean hme)
    have hi := @runningMean_isMean_iff cfg 1 count x (by decide) (by omega) (by omega)
    rw [ht] at hi
    exact ⟨hf, hi.mp (ha 1 (by decide))⟩
  · rintro ⟨hf, hx⟩ mean hme
    have hi := @runningMean_isMean_iff cfg mean count x hme (by omega) (by omega)
    rw [ht] at hi
    exact hi.mpr hx

end

/-- A mean of 1000 over ten spinners, and a new value of 3000 or of the tenth of a word. -/
theorem running_means_true_of_ten : IsMean (runningMean .default 1000 10 3000) 1000 10 3000 10 ∧
      ¬ IsMean (runningMean .default 1000 10 1844674407370955162) 1000 10 1844674407370955162 10 := by
  refine ⟨?_, ?_⟩
  · exact ((running_means_true .default 10 3000).1 (by decide) (by decide) 1000 (by decide)).mpr (by decide)
  · intro h
    have hi := (running_means_true .default 10 1844674407370955162).1 (by decide) (by decide) 1000 (by decide)
    exact absurd (hi.mp h) (by decide)

/-- The mean of 1000 and a larger value, weighted alike, is below both. -/
theorem mean_below_both : runningMean .default 1000 10 1844674407370955162 = .ok 500 ∧
    weighted 1000 10 1844674407370955162 10 = 922337203685478081 := by
  decide +kernel

end Gyro
