import Gyro.Coinbase
import Mathlib.Data.UInt

/-!
# The block reward as a function of the weight

`get_block_reward` in natural numbers, for medians that leave room for the products:
the reward falls with the weight and rises with the median.
-/

namespace Gyro

open List

def penalized (base m c : Nat) : Nat := if c ≤ m then base else base * ((2 * m - c) * c) / m / m

section
variable {base m m' c c' : Nat}

theorem penalized_of_gt (h : m < c) : penalized base m c = base * ((2 * m - c) * c) / (m * m) := by
  rw [penalized, if_neg (Nat.not_le.mpr h), Nat.div_div_eq_div_mul]

theorem excess_le (h : c ≤ 2 * m) : (2 * m - c) * c ≤ m * m := by
  obtain ⟨d, hd⟩ := Nat.le.dest h
  have hs : 2 * m - c = d := by omega
  nlinarith [Nat.mul_self_le_mul_self_iff.mpr (le_refl m), sq_nonneg ((c : Int) - d)]

theorem excess_lt (hc : m < c) (h : c ≤ 2 * m) : (2 * m - c) * c < m * m := by
  obtain ⟨e, rfl⟩ := Nat.le.dest hc
  obtain ⟨d, hd⟩ := Nat.le.dest h
  rw [show 2 * m - (m + 1 + e) = d by omega]
  nlinarith

theorem penalized_le (h : c ≤ 2 * m) : penalized base m c ≤ base := by
  by_cases hc : c ≤ m
  · rw [penalized, if_pos hc]
  · rw [penalized_of_gt (by omega)]
    apply Nat.div_le_of_le_mul
    rw [Nat.mul_comm (m * m)]
    exact Nat.mul_le_mul_left base (excess_le h)

theorem penalized_anti (hc : c ≤ c') (h : c' ≤ 2 * m) : penalized base m c' ≤ penalized base m c := by
  by_cases hm : c ≤ m
  · rw [show penalized base m c = base from if_pos hm]
    exact penalized_le h
  · rw [penalized_of_gt (by omega), penalized_of_gt (by omega)]
    apply Nat.div_le_div_right
    apply Nat.mul_le_mul_left
    obtain ⟨d, hd⟩ := Nat.le.dest h
    obtain ⟨e, he⟩ := Nat.le.dest hc
    rw [show 2 * m - c' = d by omega, show 2 * m - c = d + e by omega]
    nlinarith

theorem penalized_mono (hp : 0 < m) (hm : m ≤ m') (h : c ≤ 2 * m) : penalized base m c ≤ penalized base m' c := by
  by_cases hc : c ≤ m'
  · rw [show penalized base m' c = base from if_pos hc]
    exact penalized_le h
  · have hk : (2 * m - c) * c * (m' * m') ≤ (2 * m' - c) * c * (m * m) := by
      obtain ⟨d, hd⟩ := Nat.le.dest h
      obtain ⟨e, rfl⟩ := Nat.le.dest hm
      rw [show 2 * m - c = d by omega, show 2 * (m + e) - c = d + 2 * e by omega]
      have hf : d * ((m + e) * (m + e)) ≤ (d + 2 * e) * (m * m) := by
        have hl : d * (2 * m + e) ≤ 2 * (m * m) := by nlinarith
        nlinarith [Nat.mul_le_mul_left e hl]
      calc d * c * ((m + e) * (m + e)) = c * (d * ((m + e) * (m + e))) := by ring
        _ ≤ c * ((d + 2 * e) * (m * m)) := Nat.mul_le_mul_left c hf
        _ = (d + 2 * e) * c * (m * m) := by ring
    have hmm : 0 < m * m := Nat.mul_pos hp hp
    have hm' : 0 < m' * m' := by nlinarith
    rw [penalized_of_gt (by omega), penalized_of_gt (by omega), Nat.le_div_iff_mul_le hm']
    apply Nat.le_of_mul_le_mul_right _ hmm
    calc base * ((2 * m - c) * c) / (m * m) * (m' * m') * (m * m)
        = base * ((2 * m - c) * c) / (m * m) * (m * m) * (m' * m') := by ring
      _ ≤ base * ((2 * m - c) * c) * (m' * m') :=
          Nat.mul_le_mul_right _ (Nat.div_mul_le_self _ _)
      _ = base * ((2 * m - c) * c * (m' * m')) := by ring
      _ ≤ base * ((2 * m' - c) * c * (m * m)) := Nat.mul_le_mul_left base hk
      _ = base * ((2 * m' - c) * c) * (m * m) := by ring

end

/-- The median a reward is reckoned with: at least the full reward zone. -/
def zonedMedian (median : UInt64) (version : UInt8) : UInt64 :=
  if median < getMinBlockWeight version then getMinBlockWeight version else median

def AtStart (cfg : Config) (height : UInt64) : Prop := 0 < height ∧ height ≤ cfg.startAmountBlocks

section
variable {cfg : Config} {height median weight coins r : UInt64} {version : UInt8}

theorem getMinBlockWeight_bounds (version : UInt8) :
    20000 ≤ (getMinBlockWeight version).toNat ∧ (getMinBlockWeight version).toNat ≤ 300000 := by
  unfold getMinBlockWeight
  split
  · decide
  · split
    · decide
    · decide

theorem zonedMedian_ge : (getMinBlockWeight version).toNat ≤ (zonedMedian median version).toNat := by
  unfold zonedMedian
  by_cases h : median < getMinBlockWeight version
  · rw [if_pos h]
  · rw [if_neg h]
    rw [UInt64.lt_iff_toNat_lt] at h
    omega

theorem getBlockReward_atStart (h : AtStart cfg height) : ∃ r, ∀ median weight coins version,
      getBlockReward cfg height median weight coins version = some r := by
  by_cases hl : height = cfg.startAmountBlocks
  · exact ⟨_, fun _ _ _ _ => (if_pos h).trans (if_pos hl)⟩
  · exact ⟨_, fun _ _ _ _ => (if_pos h).trans (if_neg hl)⟩

section
variable (h : ¬ AtStart cfg height) (hm : (zonedMedian median version).toNat ≤ 2 ^ 32)
include h hm

theorem getBlockReward_eq : getBlockReward cfg height median weight coins version =
      if weight.toNat ≤ 2 * (zonedMedian median version).toNat then
        some (UInt64.ofNat (penalized (baseReward cfg coins).toNat (zonedMedian median version).toNat weight.toNat))
      else none := by
  have hd : (2 * zonedMedian median version).toNat = 2 * (zonedMedian median version).toNat := by
    rw [UInt64.toNat_mul]
    exact Nat.mod_eq_of_lt (by change 2 * _ < 2 ^ 64; omega)
  unfold getBlockReward
  rw [if_neg (show ¬ (0 < height ∧ height ≤ cfg.startAmountBlocks) from h)]
  change (if weight ≤ zonedMedian median version then some (baseReward cfg coins)
    else if 2 * zonedMedian median version < weight then none else some (UInt64.ofNat ((baseReward cfg coins).toNat *
      ((2 * zonedMedian median version - weight) * weight).toNat / (zonedMedian median version).toNat /
        (zonedMedian median version).toNat))) = _
  generalize hme : zonedMedian median version = m at hm hd ⊢
  simp only [UInt64.le_iff_toNat_le, UInt64.lt_iff_toNat_lt, hd]
  by_cases hf : weight.toNat ≤ m.toNat
  · rw [if_pos hf, if_pos (by omega), penalized, if_pos hf, UInt64.ofNat_toNat]
  · rw [if_neg hf]
    by_cases hb : 2 * m.toNat < weight.toNat
    · rw [if_pos hb, if_neg (by omega)]
    · have hle : weight ≤ 2 * m := by
        rw [UInt64.le_iff_toNat_le]
        omega
      have hp : ((2 * m - weight) * weight).toNat = (2 * m.toNat - weight.toNat) * weight.toNat := by
        rw [UInt64.toNat_mul, UInt64.toNat_sub_of_le _ _ hle, hd]
        apply Nat.mod_eq_of_lt
        have hs := @excess_lt m.toNat weight.toNat (by omega) (by omega)
        have hbound : m.toNat * m.toNat ≤ 2 ^ 64 := by nlinarith
        omega
      rw [if_neg hb, if_pos (by omega), penalized, if_neg hf, hp]

theorem getBlockReward_eq_some : getBlockReward cfg height median weight coins version = some r ↔
      weight.toNat ≤ 2 * (zonedMedian median version).toNat ∧
        r.toNat = penalized (baseReward cfg coins).toNat (zonedMedian median version).toNat weight.toNat := by
  rw [getBlockReward_eq h hm]
  by_cases hle : weight.toNat ≤ 2 * (zonedMedian median version).toNat
  · have hl : penalized (baseReward cfg coins).toNat (zonedMedian median version).toNat
        weight.toNat < 2 ^ 64 :=
      Nat.lt_of_le_of_lt (penalized_le hle) (baseReward cfg coins).toNat_lt
    rw [if_pos hle, Option.some.injEq, ← UInt64.toNat_inj, UInt64.toNat_ofNat_of_lt' hl]
    constructor
    · intro hr
      exact ⟨hle, hr.symm⟩
    · rintro ⟨_, hr⟩
      exact hr.symm
  · simp [hle]

end

/-- How the reward depends on the weight, for a median and a base reward. -/
structure PenaltyLaw (cfg : Config) (height median coins : UInt64) (version : UInt8) (M B : Nat) : Prop where
  tooBig : ∀ w, getBlockReward cfg height median w coins version = none ↔ 2 * M < w.toNat
  free : ∀ w r, w.toNat ≤ M → getBlockReward cfg height median w coins version = some r → r.toNat = B
  penalty : ∀ w r, M < w.toNat → getBlockReward cfg height median w coins version = some r →
    r.toNat = B * ((2 * M - w.toNat) * w.toNat) / (M * M)
  le_base : ∀ w r, getBlockReward cfg height median w coins version = some r → r.toNat ≤ B
  antitone : ∀ w w' r r', w ≤ w' → getBlockReward cfg height median w coins version = some r →
    getBlockReward cfg height median w' coins version = some r' → r' ≤ r
  fits : ∀ w : UInt64, M < w.toNat → w.toNat ≤ 2 * M →
    (2 * M - w.toNat) * w.toNat < 2 ^ 64 ∧ B * ((2 * M - w.toNat) * w.toNat) < 2 ^ 128

/-- A median up to `2 ^ 32` leaves room for every product of the penalty. -/
theorem reward_penalty_law (h : ¬ AtStart cfg height) (hm : (zonedMedian median version).toNat ≤ 2 ^ 32) :
    PenaltyLaw cfg height median coins version (zonedMedian median version).toNat
      (baseReward cfg coins).toNat := by
  have hs := fun w r => @getBlockReward_eq_some cfg height median w coins r version h hm
  constructor
  case tooBig =>
    intro w
    rw [getBlockReward_eq h hm]
    split <;> simp <;> omega
  case free =>
    intro w r hf hr
    rw [((hs w r).mp hr).2, penalized, if_pos hf]
  case penalty =>
    intro w r hg hr
    rw [((hs w r).mp hr).2, penalized_of_gt hg]
  case le_base =>
    intro w r hr
    obtain ⟨hle, heq⟩ := (hs w r).mp hr
    exact heq ▸ penalized_le hle
  case antitone =>
    intro w w' r r' hww hr hr'
    obtain ⟨hle, heq⟩ := (hs w' r').mp hr'
    rw [UInt64.le_iff_toNat_le, ((hs w r).mp hr).2, heq]
    exact penalized_anti (UInt64.le_iff_toNat_le.mp hww) hle
  case fits =>
    intro w hg hle
    have hl : (2 * (zonedMedian median version).toNat - w.toNat) * w.toNat < 2 ^ 64 := by
      have := excess_lt hg hle
      nlinarith
    have hb := (baseReward cfg coins).toNat_lt
    exact ⟨hl, by nlinarith⟩

end

theorem reward_penalty_law_default :
    PenaltyLaw Config.default 200 60000 0 2 60000 (baseReward Config.default 0).toNat :=
  @reward_penalty_law Config.default 200 60000 0 2 (fun h => absurd h.2 (by decide)) (by decide)

/-- Above that the product of the penalty wraps: nearly the whole reward is lost. -/
theorem reward_penalty_wraps :
    ¬ ∀ (cfg : Config) (height median coins : UInt64) (version : UInt8), ¬ AtStart cfg height →
      PenaltyLaw cfg height median coins version (zonedMedian median version).toNat
        (baseReward cfg coins).toNat := by
  intro h
  have hl := h Config.default 200 (2 ^ 32 + 1) 0 1 fun hs => absurd hs.2 (by decide)
  have hr := hl.penalty (2 ^ 32 + 2) _ (by decide +kernel) rfl
  exact absurd hr (by decide +kernel)

/-! ## The start blocks -/

section
variable (cfg : Config) (median weight coins : UInt64 → UInt64) (version : UInt64 → UInt8)

def startRewards : List (Option UInt64) :=
  (List.range cfg.startAmountBlocks.toNat).map fun k =>
    let h := UInt64.ofNat (k + 1)
    getBlockReward cfg h (median h) (weight h) (coins h) (version h)

def StartExact : Prop :=
  ∃ rewards : List UInt64, startRewards cfg median weight coins version = rewards.map some ∧
    (rewards.map (·.toNat)).sum = cfg.startAmount.toNat ∧
    (cfg.startAmountBlocks.toNat - 1) * cfg.startAmount.toNat < 2 ^ 64

variable {cfg} {median weight coins version}

theorem startRewards_eq {n : Nat} (hn : cfg.startAmountBlocks.toNat = n + 1) :
    startRewards cfg median weight coins version = (List.replicate n (cfg.startAmount / cfg.startAmountBlocks) ++
        [cfg.startAmount - (cfg.startAmountBlocks - 1) * cfg.startAmount / cfg.startAmountBlocks]).map some := by
  have ht := cfg.startAmountBlocks.toNat_lt
  have ha : ∀ k ≤ n, (UInt64.ofNat (k + 1)).toNat = k + 1 := fun k hk =>
    UInt64.toNat_ofNat_of_lt' (by change _ < 2 ^ 64; omega)
  have hp : ∀ k < n, getBlockReward cfg (UInt64.ofNat (k + 1)) (median (UInt64.ofNat (k + 1)))
      (weight (UInt64.ofNat (k + 1))) (coins (UInt64.ofNat (k + 1))) (version (UInt64.ofNat (k + 1))) =
      some (cfg.startAmount / cfg.startAmountBlocks) := by
    intro k hk
    have hk' := ha k (by omega)
    have hs : 0 < UInt64.ofNat (k + 1) ∧ UInt64.ofNat (k + 1) ≤ cfg.startAmountBlocks := by
      rw [UInt64.lt_iff_toNat_lt, UInt64.le_iff_toNat_le, hk']
      exact ⟨Nat.succ_pos k, by omega⟩
    rw [getBlockReward, if_pos hs, if_neg]
    intro heq
    rw [heq] at hk'
    omega
  have hl : UInt64.ofNat (n + 1) = cfg.startAmountBlocks := by
    rw [← hn, UInt64.ofNat_toNat]
  rw [startRewards, hn, range_succ, map_append, map_append, map_replicate]
  congr 1
  · rw [eq_replicate_iff]
    refine ⟨by rw [length_map, length_range], fun x hx => ?_⟩
    obtain ⟨k, hk, rfl⟩ := mem_map.mp hx
    exact hp k (mem_range.mp hk)
  · rw [map_singleton, map_singleton, hl]
    have ho : 0 < cfg.startAmountBlocks := by
      rw [UInt64.lt_iff_toNat_lt, hn]
      exact Nat.succ_pos n
    rw [getBlockReward, if_pos ⟨ho, UInt64.le_refl _⟩, if_pos rfl]

theorem paid_eq_iff (a n : Nat) : n * (a / (n + 1)) + (a - n * a / (n + 1)) = a ↔ a % (n + 1) ≤ 1 := by
  have hdiv := Nat.div_add_mod a (n + 1)
  have hr := Nat.mod_lt a (Nat.succ_pos n)
  generalize a / (n + 1) = q at *
  generalize a % (n + 1) = r at *
  have hp : n * a / (n + 1) = n * q + (r - 1) := by
    rw [← hdiv]
    cases r with
    | zero =>
      rw [show n * ((n + 1) * q + 0) = n * q * (n + 1) by ring]
      exact Nat.mul_div_cancel _ (Nat.succ_pos n)
    | succ s =>
      rw [show n * ((n + 1) * q + (s + 1)) = (n - s) + (n * q + s) * (n + 1) by
          obtain ⟨d, rfl⟩ := Nat.le.dest (Nat.le_of_lt_succ (Nat.lt_of_succ_lt hr))
          rw [Nat.add_sub_cancel_left]
          ring,
        Nat.add_mul_div_right _ _ (Nat.succ_pos n), Nat.div_eq_of_lt (by omega), Nat.zero_add]
      rfl
  rw [Nat.add_mul] at hdiv
  omega

/-- The start blocks pay exactly the start amount where it leaves at most one
coin over and where all but one block's shares of it fit a word together. -/
theorem start_emission_exact_iff (hpos : 0 < cfg.startAmountBlocks) :
    StartExact cfg median weight coins version ↔ cfg.startAmount.toNat % cfg.startAmountBlocks.toNat ≤ 1 ∧
        (cfg.startAmountBlocks.toNat - 1) * cfg.startAmount.toNat < 2 ^ 64 := by
  obtain ⟨n, hn⟩ : ∃ n, cfg.startAmountBlocks.toNat = n + 1 :=
    Nat.exists_eq_succ_of_ne_zero (Nat.pos_iff_ne_zero.mp (UInt64.lt_iff_toNat_lt.mp hpos))
  have hp : (cfg.startAmountBlocks - 1).toNat = n := by
    rw [UInt64.toNat_sub_of_le _ _ (UInt64.le_iff_toNat_le.mpr (by rw [hn]; exact Nat.succ_pos n)), hn]
    rfl
  unfold StartExact
  rw [startRewards_eq hn, hn, Nat.add_sub_cancel]
  simp only [List.map_inj_right (fun _ _ => Option.some.inj), exists_eq_left', and_congr_left_iff]
  intro hf
  have hs : (cfg.startAmount - (cfg.startAmountBlocks - 1) * cfg.startAmount / cfg.startAmountBlocks).toNat =
      cfg.startAmount.toNat - n * cfg.startAmount.toNat / (n + 1) := by
    have hdiv : ((cfg.startAmountBlocks - 1) * cfg.startAmount / cfg.startAmountBlocks).toNat =
        n * cfg.startAmount.toNat / (n + 1) := by
      rw [UInt64.toNat_div, UInt64.toNat_mul, hp, hn, Nat.mod_eq_of_lt hf]
    rw [UInt64.toNat_sub_of_le _ _ (UInt64.le_iff_toNat_le.mpr _), hdiv]
    rw [hdiv]
    exact Nat.div_le_of_le_mul (Nat.mul_le_mul_right _ (Nat.le_succ n))
  rw [map_append, sum_append, map_replicate, sum_replicate_nat, map_singleton, hs, UInt64.toNat_div, hn]
  exact paid_eq_iff _ n

end

theorem start_emission_default : StartExact Config.default id id id (fun _ => 1) :=
  (start_emission_exact_iff (by decide)).mpr ⟨by decide, by decide⟩

/-- Five coins over three blocks: one, one and two. -/
theorem start_emission_short : ¬ ∀ (cfg : Config) (median weight coins : UInt64 → UInt64) (version : UInt64 → UInt8),
      0 < cfg.startAmountBlocks → StartExact cfg median weight coins version := by
  intro h
  obtain ⟨rewards, heq, hs, _⟩ := h { Config.default with startAmount := 5, startAmountBlocks := 3 } id id id
    (fun _ => 1) (by decide)
  have hp : rewards = [1, 1, 2] := by
    apply List.map_inj_right (fun _ _ => Option.some.inj) |>.mp
    rw [← heq]
    decide
  rw [hp] at hs
  exact absurd hs (by decide)

end Gyro
