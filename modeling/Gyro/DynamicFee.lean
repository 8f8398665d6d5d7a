import Gyro.ChainId
import Gyro.LongTermWeight
import Gyro.Lib.OrderStatistic

/-!
# Dynamic fees

`get_dynamic_base_fee`, `check_fee` and `get_dynamic_base_fee_estimate`, which replaces
the oldest `grace_blocks` of the window by the minimum weight.
-/

open RollingMedian OrderStatistic
open UInt64 (toNat_min toNat_max)

namespace Gyro

open List

def getFeeQuantizationMask (cfg : CryptonoteConfig) : UInt64 :=
  (List.range (cfg.cryptonoteDisplayDecimalPoint.toNat - 8)).foldl (fun mask _ => mask * 10) 1

def quantized (cfg : CryptonoteConfig) (fee : UInt64) : UInt64 :=
  let mask := getFeeQuantizationMask cfg
  (fee + mask - 1) / mask * mask

def dynamicFeePerKbBaseFee (version : UInt8) : UInt64 :=
  if 5 ≤ version then 2000000000 * 60000 / 300000 else 2000000000

/-- `get_dynamic_base_fee`: per byte from version 8 on, per kB before. -/
def getDynamicBaseFee (cfg : CryptonoteConfig) (reward medianBlockWeight : UInt64) (version : UInt8) : UInt64 :=
  let minBlockWeight := getMinBlockWeight version
  let median := if medianBlockWeight < minBlockWeight then minBlockWeight else medianBlockWeight
  if 8 ≤ version then
    UInt64.ofNat (reward.toNat * 3000 / minBlockWeight.toNat / median.toNat) / 5
  else
    let unscaled := dynamicFeePerKbBaseFee version * minBlockWeight / median
    quantized cfg (UInt64.ofNat (unscaled.toNat * reward.toNat / 10000000000000))

def startedKb (weight : UInt64) : UInt64 := weight / 1024 + (if weight % 1024 = 0 then 0 else 1)

def feeForWeight (cfg : CryptonoteConfig) (version : UInt8) (weight rate : UInt64) : UInt64 :=
  if 8 ≤ version then quantized cfg (weight * rate) else startedKb weight * rate

variable {m : UInt64} {cfg : CryptonoteConfig} {version : List WeighedBlock → UInt8} {s : LongTerm}

section
variable (cfg : CryptonoteConfig) (version : List WeighedBlock → UInt8) (s : LongTerm) (coins : UInt64)

/-- From version 10 on the fee is reckoned with the long-term median at most. -/
def feeMedian (median : UInt64) : UInt64 :=
  if 10 ≤ version s.blocks then min median s.effectiveMedian else median

def feeReward : Option UInt64 :=
  getBlockReward cfg.toConfig (UInt64.ofNat s.height) (s.cumulWeightLimit / 2) 1 coins (version s.blocks)

def checkFee (weight fee : UInt64) : Bool :=
  let v := version s.blocks
  let needed : Option UInt64 :=
    if v < 4 then some (feeForWeight cfg v weight 2000000000)
    else (feeReward cfg version s coins).map fun reward =>
      feeForWeight cfg v weight
        (getDynamicBaseFee cfg reward (feeMedian version s (s.cumulWeightLimit / 2)) v)
  match needed with
  | none => false
  -- a little buffer of 2% on acceptance
  | some needed => needed - needed / 50 ≤ fee

def paddedWeights (graceBlocks : Nat) (minBlockWeight : UInt64) : List UInt64 :=
  lastBlocksWeights s.blocks (100 - graceBlocks) ++ List.replicate graceBlocks minBlockWeight

def getDynamicBaseFeeEstimate (graceBlocks : UInt64) : UInt64 :=
  let v := version s.blocks
  if v < 4 then 2000000000
  else
    let grace := if 100 ≤ graceBlocks then 99 else graceBlocks.toNat
    let minBlockWeight := getMinBlockWeight v
    let median := median (paddedWeights s grace minBlockWeight)
    let median := if median ≤ minBlockWeight then minBlockWeight else median
    let reward := (feeReward cfg version s coins).getD 10000000000000
    getDynamicBaseFee cfg reward (feeMedian version s median) v

end

/-! ## The padded median -/

def MiddleSplit (xs : List UInt64) (m : UInt64) : Prop :=
  xs.length % 2 = 0 ∧ (sorted xs).getD (xs.length / 2 - 1) 0 < m ∧
    m < (sorted xs).getD (xs.length / 2) 0

section
variable {xs ps : List UInt64} {i j : Nat}

theorem sorted_length (xs : List UInt64) : (sorted xs).length = xs.length := (sorted_perm xs).length_eq

theorem sorted_getElem? (xs : List UInt64) (hi : i < xs.length) : (sorted xs)[i]? = some ((sorted xs).getD i 0) := by
  rw [← sorted_length] at hi
  simp [List.getD_eq_getElem?_getD, List.getElem?_eq_getElem hi]

theorem sorted_getD_lt {B : Nat} (hB : ∀ x ∈ xs, x.toNat < B) (hi : i < xs.length) : ((sorted xs).getD i 0).toNat < B :=
  hB _ ((sorted_perm xs).subset (List.mem_of_getElem? (sorted_getElem? xs hi)))

theorem sorted_getD_mono (xs : List UInt64) (hi : i ≤ j) (hj : j < xs.length) :
    ((sorted xs).getD i 0).toNat ≤ ((sorted xs).getD j 0).toNat := by
  by_cases heq : i = j
  · rw [heq]
  · obtain ⟨hi', hx⟩ := List.getElem?_eq_some_iff.mp (sorted_getElem? xs (i := i) (by omega))
    obtain ⟨hj', hy⟩ := List.getElem?_eq_some_iff.mp (sorted_getElem? xs hj)
    rw [← hx, ← hy]
    exact UInt64.le_iff_toNat_le.mp
      (pairwise_iff_getElem.mp (sorted_pairwise xs) i j hi' hj' (by omega))

theorem median_toNat (hn : xs ≠ []) (hB : ∀ x ∈ xs, x.toNat < 2 ^ 58) : (median xs).toNat =
    if xs.length % 2 = 1 then ((sorted xs).getD (xs.length / 2) 0).toNat
    else (((sorted xs).getD (xs.length / 2 - 1) 0).toNat + ((sorted xs).getD (xs.length / 2) 0).toNat) / 2 := by
  have hp := length_pos_iff.mpr hn
  have hl := sorted_getD_lt hB (i := xs.length / 2 - 1) (by omega)
  have hh := sorted_getD_lt hB (i := xs.length / 2) (by omega)
  rw [median_eq hn]
  split_ifs with ho
  · rfl
  · rw [UInt64.toNat_div, UInt64.toNat_add, Nat.mod_eq_of_lt (by omega)]
    rfl

theorem median_lt (hB : ∀ x ∈ xs, x.toNat < 2 ^ 58) : (median xs).toNat < 2 ^ 58 := by
  by_cases hn : xs = []
  · subst hn
    decide
  · have hp := length_pos_iff.mpr hn
    have hl := sorted_getD_lt hB (i := xs.length / 2 - 1) (by omega)
    have hh := sorted_getD_lt hB (i := xs.length / 2) (by omega)
    rw [median_toNat hn hB]
    split_ifs <;> omega

section
variable (habove : ∀ t, m ≤ t → above t ps ≤ above t xs)
include habove

theorem nth_le (hi : i < ps.length) (hj : j < xs.length) (hij : xs.length + i ≤ ps.length + j) :
    ((sorted ps).getD i 0).toNat ≤ max m.toNat ((sorted xs).getD j 0).toNat := by
  have ha' : ∀ t, m ≤ t → above t (sorted ps) ≤ above t (sorted xs) := by
    intro t ht
    rw [above_perm (sorted_perm ps), above_perm (sorted_perm xs)]
    exact habove t ht
  have hle := le_of_above (sorted_pairwise xs) (sorted_pairwise ps) ha' (sorted_getElem? xs hj)
    (sorted_getElem? ps hi) (by rw [sorted_length, sorted_length]; exact hij)
  rw [UInt64.le_iff_toNat_le, UInt64.le_iff_toNat_le] at hle
  omega

theorem nth_le_min (hi : i + xs.length < ps.length) : ((sorted ps).getD i 0).toNat ≤ m.toNat := by
  have hc := (lt_iff_above (sorted_pairwise ps) (sorted_getElem? ps (i := i) (by omega)) m).not.mpr
    (by
      have hle := habove m (UInt64.le_refl m)
      have hx := above_le_length m xs
      rw [above_perm (sorted_perm ps), sorted_length]
      omega)
  rw [UInt64.lt_iff_toNat_lt] at hc
  omega

/-- With no more weights above any bound the median is not raised, unless the middle of `xs` is
split. -/
theorem median_le_of_above (hlen : xs.length ≤ ps.length) (hs : ∀ x ∈ xs, x.toNat < 2 ^ 58) (hps : ∀ x ∈ ps, x.toNat < 2 ^ 58)
    (hsp : ¬ MiddleSplit xs m) : (median ps).toNat ≤ max m.toNat (median xs).toNat := by
  by_cases hp : ps = []
  · subst hp
    exact Nat.zero_le _
  have hpo := length_pos_iff.mpr hp
  have hmo := sorted_getD_mono ps (i := ps.length / 2 - 1) (j := ps.length / 2) (by omega) (by omega)
  rw [median_toNat hp hps]
  by_cases hx : xs = []
  · subst hx
    have hh := nth_le_min habove (i := ps.length / 2) (by simp only [length_nil]; omega)
    split_ifs <;> omega
  · have hn := length_pos_iff.mpr hx
    have hmn := sorted_getD_mono xs (i := xs.length / 2 - 1) (j := xs.length / 2)
      (by omega) (by omega)
    rw [median_toNat hx hs]
    by_cases ho : xs.length % 2 = 1
    · have hh := nth_le habove (i := ps.length / 2) (j := xs.length / 2) (by omega) (by omega)
        (by omega)
      split_ifs <;> omega
    · rw [if_neg ho]
      by_cases hd : ps.length % 2 = 1
      · have hh := nth_le habove (i := ps.length / 2) (j := xs.length / 2 - 1) (by omega)
          (by omega) (by omega)
        rw [if_pos hd]
        omega
      · have hl := nth_le habove (i := ps.length / 2 - 1) (j := xs.length / 2 - 1) (by omega)
          (by omega) (by omega)
        have hh := nth_le habove (i := ps.length / 2) (j := xs.length / 2) (by omega)
          (by omega) (by omega)
        rw [if_neg hd]
        have hc : m.toNat ≤ ((sorted xs).getD (xs.length / 2 - 1) 0).toNat ∨
            ((sorted xs).getD (xs.length / 2) 0).toNat ≤ m.toNat := by
          by_contra hnot
          apply hsp
          refine ⟨by omega, ?_, ?_⟩
          · rw [UInt64.lt_iff_toNat_lt]
            omega
          · rw [UInt64.lt_iff_toNat_lt]
            omega
        omega

end

end

/-! ## The fee falls with the median -/

section
variable {v : UInt8} {reward c e w fee fee' : UInt64}

section
variable (h : cfg.cryptonoteDisplayDecimalPoint.toNat ≤ 24)
include h

theorem mask_bounds : 0 < (getFeeQuantizationMask cfg).toNat ∧ (getFeeQuantizationMask cfg).toNat ≤ 10 ^ 16 := by
  have ha : ∀ k < 17, 0 < ((List.range k).foldl (fun (mask : UInt64) _ => mask * 10) 1).toNat ∧
      ((List.range k).foldl (fun (mask : UInt64) _ => mask * 10) 1).toNat ≤ 10 ^ 16 := by decide
  exact ha _ (by omega)

theorem quantized_toNat (hf : fee.toNat < 2 ^ 64 - 10 ^ 16) : (quantized cfg fee).toNat =
      (fee.toNat + (getFeeQuantizationMask cfg).toNat - 1) / (getFeeQuantizationMask cfg).toNat *
        (getFeeQuantizationMask cfg).toNat := by
  obtain ⟨hp, hle⟩ := mask_bounds h
  unfold quantized
  generalize getFeeQuantizationMask cfg = mask at hp hle
  have hs : (fee + mask).toNat = fee.toNat + mask.toNat := by
    rw [UInt64.toNat_add, Nat.mod_eq_of_lt (by omega)]
  have ho : (1 : UInt64).toNat = 1 := rfl
  have hb : (fee + mask - 1).toNat = fee.toNat + mask.toNat - 1 := by
    rw [UInt64.toNat_sub_of_le _ _ (UInt64.le_iff_toNat_le.mpr (by omega)), hs, ho]
  have hd := Nat.div_mul_le_self (fee.toNat + mask.toNat - 1) mask.toNat
  rw [UInt64.toNat_mul, UInt64.toNat_div, hb, Nat.mod_eq_of_lt (by omega)]

theorem quantized_mono (hf : fee'.toNat < 2 ^ 64 - 10 ^ 16) (hle : fee.toNat ≤ fee'.toNat) :
    (quantized cfg fee).toNat ≤ (quantized cfg fee').toNat ∧ (quantized cfg fee').toNat ≤ fee'.toNat + 10 ^ 16 := by
  obtain ⟨hp, ha⟩ := mask_bounds h
  rw [quantized_toNat h hf, quantized_toNat h (by omega)]
  have hd := Nat.div_mul_le_self (fee'.toNat + (getFeeQuantizationMask cfg).toNat - 1)
    (getFeeQuantizationMask cfg).toNat
  constructor
  · exact Nat.mul_le_mul_right _ (Nat.div_le_div_right (by omega))
  · omega

end

theorem getMinBlockWeight_of_ge (hv : 5 ≤ v) : getMinBlockWeight v = 300000 := by
  rw [UInt8.le_iff_toNat_le] at hv
  have hf : (5 : UInt8).toNat = 5 := rfl
  have ht : (2 : UInt8).toNat = 2 := rfl
  unfold getMinBlockWeight
  simp only [UInt8.lt_iff_toNat_lt]
  split_ifs
  · omega
  · omega
  · rfl

theorem getDynamicBaseFee_perByte (hv : 8 ≤ v) : (getDynamicBaseFee cfg reward c v).toNat =
      reward.toNat * 3000 / 300000 / (zonedMedian c v).toNat / 5 := by
  have hi := getMinBlockWeight_of_ge (v := v) (UInt8.le_trans (by decide) hv)
  have hme := @zonedMedian_ge c v
  have hr := reward.toNat_lt
  have hz : (300000 : UInt64).toNat = 300000 := rfl
  have hfv : (5 : UInt64).toNat = 5 := rfl
  rw [hi] at hme
  have hf : reward.toNat * 3000 / 300000 / (zonedMedian c v).toNat < 2 ^ 64 := by
    have hd := Nat.div_le_self (reward.toNat * 3000 / 300000) (zonedMedian c v).toNat
    omega
  unfold getDynamicBaseFee
  simp only [if_pos hv]
  rw [UInt64.toNat_div, hfv, hi, hz]
  unfold zonedMedian at hf ⊢
  rw [hi] at hf ⊢
  rw [UInt64.toNat_ofNat_of_lt' hf]

def unscaledFee (c : UInt64) (v : UInt8) : Nat :=
  (dynamicFeePerKbBaseFee v).toNat * (getMinBlockWeight v).toNat / (zonedMedian c v).toNat

theorem dynamicFeePerKbBaseFee_le (v : UInt8) : (dynamicFeePerKbBaseFee v).toNat ≤ 2000000000 := by
  unfold dynamicFeePerKbBaseFee
  split_ifs <;> decide

theorem unscaledFee_le (c : UInt64) (v : UInt8) : unscaledFee c v ≤ (dynamicFeePerKbBaseFee v).toNat := by
  have hme := @zonedMedian_ge c v
  apply Nat.div_le_of_le_mul
  rw [Nat.mul_comm]
  exact Nat.mul_le_mul_right _ hme

def feePerKb (reward c : UInt64) (v : UInt8) : Nat := unscaledFee c v * reward.toNat / 10000000000000

theorem feePerKb_le (reward c : UInt64) (v : UInt8) :
    feePerKb reward c v ≤ (dynamicFeePerKbBaseFee v).toNat * 2 ^ 64 / 10000000000000 := by
  apply Nat.div_le_div_right
  exact Nat.mul_le_mul (unscaledFee_le c v) (Nat.le_of_lt reward.toNat_lt)

theorem feePerKb_lt (reward c : UInt64) (v : UInt8) : feePerKb reward c v < 4 * 10 ^ 15 := by
  have hle := feePerKb_le reward c v
  have hb := dynamicFeePerKbBaseFee_le v
  omega

theorem feePerKb_toNat (reward c : UInt64) (v : UInt8) :
    (UInt64.ofNat (feePerKb reward c v)).toNat = feePerKb reward c v := by
  apply UInt64.toNat_ofNat_of_lt'
  exact Nat.lt_trans (feePerKb_lt reward c v) (by decide)

theorem getDynamicBaseFee_perKb (hv : ¬ 8 ≤ v) :
    getDynamicBaseFee cfg reward c v = quantized cfg (UInt64.ofNat (feePerKb reward c v)) := by
  have hb := dynamicFeePerKbBaseFee_le v
  have hi := getMinBlockWeight_bounds v
  have hp : (dynamicFeePerKbBaseFee v * getMinBlockWeight v).toNat =
      (dynamicFeePerKbBaseFee v).toNat * (getMinBlockWeight v).toNat := by
    rw [UInt64.toNat_mul, Nat.mod_eq_of_lt]
    calc (dynamicFeePerKbBaseFee v).toNat * (getMinBlockWeight v).toNat
        ≤ 2000000000 * 300000 := Nat.mul_le_mul hb hi.2
      _ < 2 ^ 64 := by decide
  unfold getDynamicBaseFee
  simp only [if_neg hv, UInt64.toNat_div, hp]
  rfl

theorem getDynamicBaseFee_anti (h : cfg.cryptonoteDisplayDecimalPoint.toNat ≤ 24) (hc : e ≤ zonedMedian c v) :
    (getDynamicBaseFee cfg reward c v).toNat ≤ (getDynamicBaseFee cfg reward e v).toNat := by
  have hme := UInt64.le_iff_toNat_le.mp (zonedMedian_mono hc)
  have hp := @zonedMedian_ge e v
  have hi := getMinBlockWeight_bounds v
  by_cases hv : 8 ≤ v
  · rw [getDynamicBaseFee_perByte hv, getDynamicBaseFee_perByte hv]
    apply Nat.div_le_div_right
    exact Nat.div_le_div_left hme (by omega)
  · have hu : unscaledFee c v ≤ unscaledFee e v := Nat.div_le_div_left hme (by omega)
    have hf : feePerKb reward c v ≤ feePerKb reward e v := by
      apply Nat.div_le_div_right
      exact Nat.mul_le_mul_right _ hu
    have hs := feePerKb_lt reward e v
    rw [getDynamicBaseFee_perKb hv, getDynamicBaseFee_perKb hv]
    apply (quantized_mono h _ _).1
    · rw [feePerKb_toNat]
      omega
    · rw [feePerKb_toNat, feePerKb_toNat]
      exact hf

theorem getDynamicBaseFee_small (h : cfg.cryptonoteDisplayDecimalPoint.toNat ≤ 24) :
    (getDynamicBaseFee cfg reward e v).toNat < if 8 ≤ v then 2 * 10 ^ 11 else 2 * 10 ^ 16 := by
  by_cases hv : 8 ≤ v
  · have hp := @zonedMedian_ge e v
    have hr := reward.toNat_lt
    rw [getMinBlockWeight_of_ge (UInt8.le_trans (by decide) hv)] at hp
    have hd : reward.toNat * 3000 / 300000 / (zonedMedian e v).toNat ≤ reward.toNat * 3000 / 300000 / 300000 :=
      Nat.div_le_div_left hp (by decide)
    rw [getDynamicBaseFee_perByte hv, if_pos hv]
    omega
  · have hs := feePerKb_lt reward e v
    have hq : (quantized cfg (UInt64.ofNat (feePerKb reward e v))).toNat ≤
        (UInt64.ofNat (feePerKb reward e v)).toNat + 10 ^ 16 :=
      (quantized_mono h (by rw [feePerKb_toNat]; omega) (Nat.le_refl _)).2
    rw [feePerKb_toNat] at hq
    rw [getDynamicBaseFee_perKb hv, if_neg hv]
    omega

theorem startedKb_toNat (hw : w.toNat ≤ 299400) : (startedKb w).toNat ≤ 293 := by
  have hk : (1024 : UInt64).toNat = 1024 := rfl
  have ho : (1 : UInt64).toNat = 1 := rfl
  unfold startedKb
  rw [UInt64.toNat_add, UInt64.toNat_div, hk]
  split_ifs
  · change (w.toNat / 1024 + 0) % 2 ^ 64 ≤ 293
    omega
  · omega

theorem weightLimit_le (hw : w ≤ TxPool.getTransactionWeightLimit v) : w.toNat ≤ if 8 ≤ v then 149400 else 299400 := by
  have hi := getMinBlockWeight_bounds v
  have hle := UInt64.le_iff_toNat_le.mp hw
  have hr : coinbaseBlobReservedSize.toNat = 600 := rfl
  unfold TxPool.getTransactionWeightLimit at hle
  by_cases hv : 8 ≤ v
  · rw [if_pos hv] at hle ⊢
    rw [getMinBlockWeight_of_ge (UInt8.le_trans (by decide) hv)] at hle
    exact hle
  · rw [if_neg hv] at hle ⊢
    rw [UInt64.toNat_sub_of_le _ _ (UInt64.le_iff_toNat_le.mpr (by omega))] at hle
    omega

theorem feeForWeight_anti (h : cfg.cryptonoteDisplayDecimalPoint.toNat ≤ 24)
    (hw : w ≤ TxPool.getTransactionWeightLimit v) (hc : e ≤ zonedMedian c v) :
    (feeForWeight cfg v w (getDynamicBaseFee cfg reward c v)).toNat ≤
      (feeForWeight cfg v w (getDynamicBaseFee cfg reward e v)).toNat := by
  have hr := @getDynamicBaseFee_anti cfg v reward c e h hc
  have hs := @getDynamicBaseFee_small cfg v reward e h
  have hwe := weightLimit_le hw
  unfold feeForWeight
  by_cases hv : 8 ≤ v
  · simp only [if_pos hv] at hs hwe ⊢
    have hp : w.toNat * (getDynamicBaseFee cfg reward e v).toNat < 149400 * (2 * 10 ^ 11) + 1 :=
      Nat.lt_succ_of_le (Nat.mul_le_mul hwe (Nat.le_of_lt hs))
    have hl := Nat.mul_le_mul_left w.toNat hr
    apply (quantized_mono h _ _).1
    · rw [UInt64.toNat_mul]
      omega
    · rw [UInt64.toNat_mul, UInt64.toNat_mul, Nat.mod_eq_of_lt (by omega), Nat.mod_eq_of_lt (by omega)]
      exact hl
  · simp only [if_neg hv] at hs hwe ⊢
    have hp := Nat.mul_le_mul (startedKb_toNat hwe) (Nat.le_of_lt hs)
    have hl := Nat.mul_le_mul_left (startedKb w).toNat hr
    rw [UInt64.toNat_mul, UInt64.toNat_mul, Nat.mod_eq_of_lt (by omega), Nat.mod_eq_of_lt (by omega)]
    exact hl

end

/-! ## The state of the chain -/

section
variable {t : LongTerm}

theorem LongTerm.getLongTermBlockWeightMedian_blocks {first count : Nat}
    (h : s.getLongTermBlockWeightMedian first count = some (m, t)) : t.blocks = s.blocks := by
  simp only [LongTerm.getLongTermBlockWeightMedian] at h
  generalize (if first + count - 1 < s.height ∧ count = s.rolling.sz then
    (s.idAt (first + count - 1)).getD nullHash else nullHash) = tip at h
  split_ifs at h
  all_goals
    cases h
    rfl

theorem LongTerm.updateLongTerm_spec {top : WeighedBlock} (h : s.updateLongTerm top = some t) :
    t.blocks = s.blocks ∧ 300000 ≤ t.effectiveMedian.toNat := by
  have hz : ∀ w : UInt64, 300000 ≤ (max grantedZone w).toNat := by
    intro w
    change 300000 ≤ (if grantedZone ≤ w then w else grantedZone).toNat
    split_ifs with hw
    · exact UInt64.le_iff_toNat_le.mp hw
    · decide
  unfold LongTerm.updateLongTerm at h
  by_cases ho : s.height = 1
  · rw [if_pos ho] at h
    cases h
    exact ⟨rfl, hz _⟩
  · rw [if_neg ho] at h
    obtain ⟨⟨m, u⟩, hm, heq⟩ := Option.map_eq_some_iff.mp h
    subst heq
    have hb := LongTerm.getLongTermBlockWeightMedian_blocks hm
    exact ⟨hb, hz _⟩

def limitMedian (version : List WeighedBlock → UInt8) (s : LongTerm) : UInt64 :=
  if version s.blocks < 10 then median (lastBlocksWeights s.blocks 100)
  else LongTerm.surgeMedian (median (lastBlocksWeights s.blocks 100)) s.effectiveMedian

theorem limitMedian_setLimit (s : LongTerm) (m : UInt64) :
    limitMedian version (s.setLimit version m) = limitMedian version s := rfl

theorem LongTerm.setLimit_cumulWeightLimit (s : LongTerm) (m : UInt64) :
    (s.setLimit version m).cumulWeightLimit = (if m ≤ getMinBlockWeight (version s.blocks)
      then getMinBlockWeight (version s.blocks) else m) * 2 := rfl

@[simp] theorem LongTerm.setLimit_effectiveMedian (s : LongTerm) (m : UInt64) :
    (s.setLimit version m).effectiveMedian = s.effectiveMedian := rfl

theorem LongTerm.update_spec (h : s.updateNextCumulativeWeightLimit version = some t) :
    t.cumulWeightLimit = (if limitMedian version t ≤ getMinBlockWeight (version t.blocks)
        then getMinBlockWeight (version t.blocks) else limitMedian version t) * 2 ∧
      (10 ≤ version t.blocks → 300000 ≤ t.effectiveMedian.toNat) := by
  unfold LongTerm.updateNextCumulativeWeightLimit at h
  by_cases hv : version s.blocks < 10
  · simp only [if_pos hv, Option.some.injEq] at h
    subst h
    refine ⟨?_, fun ht => absurd hv (UInt8.not_lt.mpr ht)⟩
    rw [LongTerm.setLimit_cumulWeightLimit, limitMedian_setLimit, LongTerm.setLimit_blocks, limitMedian, if_pos hv]
  · simp only [if_neg hv] at h
    obtain hn | ⟨top, ho⟩ := Option.eq_none_or_eq_some s.blocks.getLast?
    · simp [hn] at h
    · simp only [ho] at h
      obtain ⟨u, hu, heq⟩ := Option.map_eq_some_iff.mp h
      subst heq
      obtain ⟨hb, hf⟩ := LongTerm.updateLongTerm_spec hu
      rw [LongTerm.setLimit_cumulWeightLimit, limitMedian_setLimit, LongTerm.setLimit_blocks,
        LongTerm.setLimit_effectiveMedian, limitMedian, hb, if_neg hv]
      exact ⟨rfl, fun _ => hf⟩

end

/-! ## The estimate suffices -/

theorem buffered_le {needed paid : UInt64} (h : needed.toNat ≤ paid.toNat) : needed - needed / 50 ≤ paid := by
  have hf : (50 : UInt64).toNat = 50 := rfl
  have hp : (needed / 50).toNat = needed.toNat / 50 := by rw [UInt64.toNat_div, hf]
  rw [UInt64.le_iff_toNat_le, UInt64.toNat_sub_of_le _ _ (UInt64.le_iff_toNat_le.mpr (by omega)), hp]
  omega

theorem toNat_floor (m zone : UInt64) : (if m ≤ zone then zone else m).toNat = max zone.toNat m.toNat := by
  simp only [UInt64.le_iff_toNat_le]
  split_ifs <;> omega

section
variable {coins : UInt64}
variable {grace : Nat}

theorem feeReward_some : ∃ reward, feeReward cfg version s coins = some reward := by
  unfold feeReward getBlockReward
  split_ifs with hs hl
  · exact ⟨_, rfl⟩
  · exact ⟨_, rfl⟩
  · have hme := @zonedMedian_ge (s.cumulWeightLimit / 2) (version s.blocks)
    have hi := (getMinBlockWeight_bounds (version s.blocks)).1
    have ho : (1 : UInt64) ≤ zonedMedian (s.cumulWeightLimit / 2) (version s.blocks) := by
      rw [UInt64.le_iff_toNat_le]
      exact Nat.le_trans (by decide) (Nat.le_trans hi hme)
    unfold zonedMedian at ho
    simp only [if_pos ho]
    exact ⟨_, rfl⟩

theorem above_paddedWeights {m t : UInt64} (ht : m ≤ t) (hg : grace ≤ 100) :
    above t (paddedWeights s grace m) ≤ above t (lastBlocksWeights s.blocks 100) := by
  unfold paddedWeights lastBlocksWeights
  rw [above_append, above_replicate ht, Nat.add_zero]
  apply List.Sublist.countP_le
  apply List.Sublist.map
  exact drop_sublist_drop_left _ (by omega)

theorem length_paddedWeights {m : UInt64} (hg : grace ≤ 100) :
    (lastBlocksWeights s.blocks 100).length ≤ (paddedWeights s grace m).length := by
  simp only [paddedWeights, lastBlocksWeights, length_append, length_map, window_length, length_replicate]
  omega

variable (hweights : ∀ b ∈ s.blocks, b.weight.toNat < 2 ^ 58)
include hweights

theorem lastBlocksWeights_lt (n : Nat) : ∀ x ∈ lastBlocksWeights s.blocks n, x.toNat < 2 ^ 58 := by
  intro x hx
  obtain ⟨b, hb, rfl⟩ := mem_map.mp hx
  exact hweights b (mem_of_mem_drop hb)

theorem paddedWeights_lt {v : UInt8} : ∀ x ∈ paddedWeights s grace (getMinBlockWeight v), x.toNat < 2 ^ 58 := by
  intro x hx
  rcases mem_append.mp hx with hx | hx
  · exact lastBlocksWeights_lt hweights _ x hx
  · rw [eq_of_mem_replicate hx]
    have hi := (getMinBlockWeight_bounds v).2
    omega

theorem limitMedian_lt : (limitMedian version s).toNat < 2 ^ 58 := by
  have hs := median_lt (lastBlocksWeights_lt hweights 100)
  have hz : grantedZone.toNat = 300000 := rfl
  unfold limitMedian LongTerm.surgeMedian
  split_ifs
  · exact hs
  · rw [toNat_min, toNat_max]
    omega

/-- The median the estimate uses is at most the one the check uses. -/
theorem estimate_median_le (hl : s.cumulWeightLimit = (if limitMedian version s ≤ getMinBlockWeight (version s.blocks)
        then getMinBlockWeight (version s.blocks) else limitMedian version s) * 2)
    (hf : 10 ≤ version s.blocks → 300000 ≤ s.effectiveMedian.toNat ∧ s.effectiveMedian.toNat < 2 ^ 58)
    (hs : ¬ MiddleSplit (lastBlocksWeights s.blocks 100) (getMinBlockWeight (version s.blocks)))
    (hg : grace ≤ 100) : feeMedian version s (if median (paddedWeights s grace (getMinBlockWeight (version s.blocks))) ≤
            getMinBlockWeight (version s.blocks) then getMinBlockWeight (version s.blocks)
          else median (paddedWeights s grace (getMinBlockWeight (version s.blocks)))) ≤
      feeMedian version s (s.cumulWeightLimit / 2) := by
  have hi := getMinBlockWeight_bounds (version s.blocks)
  have hp := median_le_of_above (fun t ht => above_paddedWeights ht hg) (length_paddedWeights hg)
    (lastBlocksWeights_lt hweights 100) (paddedWeights_lt hweights) hs
  have hbound := @limitMedian_lt version s hweights
  have htw : (2 : UInt64).toNat = 2 := rfl
  have hh : (s.cumulWeightLimit / 2).toNat =
      max (getMinBlockWeight (version s.blocks)).toNat (limitMedian version s).toNat := by
    rw [hl, UInt64.toNat_div, UInt64.toNat_mul, toNat_floor, htw, Nat.mod_eq_of_lt (by omega)]
    omega
  unfold feeMedian
  by_cases hte : 10 ≤ version s.blocks
  · obtain ⟨ho, hhi⟩ := hf hte
    have hz : (getMinBlockWeight (version s.blocks)).toNat = 300000 := by
      rw [getMinBlockWeight_of_ge (UInt8.le_trans (by decide) hte)]
      rfl
    have hr : grantedZone.toNat = 300000 := rfl
    have hff : (50 * s.effectiveMedian).toNat = 50 * s.effectiveMedian.toNat := by
      rw [UInt64.toNat_mul, Nat.mod_eq_of_lt]
      · rfl
      · change 50 * s.effectiveMedian.toNat < 2 ^ 64
        omega
    have hsr : (limitMedian version s).toNat =
        min (max 300000 (median (lastBlocksWeights s.blocks 100)).toNat) (50 * s.effectiveMedian.toNat) := by
      rw [limitMedian, if_neg (UInt8.not_lt.mpr hte), LongTerm.surgeMedian, toNat_min, toNat_max, hff, hr]
    rw [if_pos hte, if_pos hte, UInt64.le_iff_toNat_le, toNat_min, toNat_min, toNat_floor, hh]
    omega
  · have hsh : limitMedian version s = median (lastBlocksWeights s.blocks 100) :=
      if_pos (UInt8.not_le.mp hte)
    rw [if_neg hte, if_neg hte, UInt64.le_iff_toNat_le, toNat_floor, hh, hsh]
    omega

end

namespace Sample

def weighedOps (weights : List UInt64) : List LongTerm.Op :=
  weights.mapIdx (fun i weight => .add (weighed i weight)) ++ [.update]

end Sample

end Gyro
