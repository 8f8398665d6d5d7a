import Gyro.BlockQueue
import Mathlib.Data.UInt

/-!
# Pruned blocks

`tools::make_pruning_seed` and the next block a node has in full, or has not (`common/pruning.cpp`).
Stripes of 4096 blocks take turns.
-/

namespace Gyro

/-- `make_pruning_seed`; `none` where it throws. -/
def makePruningSeed (stripe logStripes : UInt32) : Option UInt32 :=
  if 7 < logStripes then none
  else if ¬(0 < stripe ∧ stripe ≤ 1 <<< logStripes) then none
  else some ((logStripes <<< 7) ||| (stripe - 1))

/-- `none` where `make_pruning_seed` throws. -/
def getNextPrunedBlockHeight (blockHeight blockchainHeight : UInt64) (pruningSeed : UInt32) : Option UInt64 :=
  let stripe := getPruningStripe pruningSeed
  if stripe = 0 then some blockchainHeight
  else if blockchainHeight ≤ blockHeight + pruningTipBlocks then some blockchainHeight
  else
    let seedLogStripes := getPruningLogStripes pruningSeed
    let logStripes := if seedLogStripes ≠ 0 then seedLogStripes else pruningLogStripes
    let mask := (1 <<< logStripes.toUInt64) - 1
    let blockPruningSeed := (((blockHeight / pruningStripeSize) &&& mask) + 1).toUInt32
    if blockPruningSeed ≠ stripe then some blockHeight
    else
      let nextStripe := 1 + (blockPruningSeed.toUInt64 &&& mask).toUInt32
      (makePruningSeed nextStripe logStripes).map (getNextUnprunedBlockHeight blockHeight blockchainHeight)

/-- `r` is the least height from `h` on with the property. -/
def LeastFrom (h : UInt64) (p : UInt64 → Prop) (r : UInt64) : Prop := h ≤ r ∧ p r ∧ ∀ g, h ≤ g → g < r → ¬ p g

/-- The two queries about a height answer what a search from it upwards would. -/
structure PruningExact (h H : UInt64) (seed : UInt32) : Prop where
  unpruned : LeastFrom h (hasUnprunedBlock · H seed) (getNextUnprunedBlockHeight h H seed)
  pruned : ∃ r, getNextPrunedBlockHeight h H seed = some r ∧
    (LeastFrom h (¬ hasUnprunedBlock · H seed) r ∨ r = H ∧ ∀ g, h ≤ g → g < H → hasUnprunedBlock g H seed)

theorem LeastFrom.self {h : UInt64} {p : UInt64 → Prop} (hp : p h) : LeastFrom h p h :=
  ⟨UInt64.le_refl h, hp, fun _ hg hgh => absurd hg (UInt64.not_le.mpr hgh)⟩

/-- The stripe of a height is that of the seed. -/
def InStripe (seed : UInt32) (h : UInt64) : Prop :=
  h.toNat / 4096 % 2 ^ (getPruningLogStripes seed).toNat + 1 = (getPruningStripe seed).toNat

/-- The first stripe from `b` on whose place in its cycle of `n` is `k`. -/
def stripeFrom (n k b : ℕ) : ℕ := (b / n + if b % n < k then 0 else 1) * n + k

theorem stripeFrom_mod {n k : ℕ} (hk : k < n) (b : ℕ) : stripeFrom n k b % n = k := by
  rw [stripeFrom, Nat.mul_add_mod_self_right, Nat.mod_eq_of_lt hk]

theorem stripeFrom_bounds {n k b : ℕ} (hk : k < n) : b < stripeFrom n k b ∧ stripeFrom n k b ≤ b + n := by
  have hb := Nat.div_add_mod' b n
  have ho : b % n < n := Nat.mod_lt _ (by omega)
  unfold stripeFrom
  split <;> simp only [Nat.add_mul] <;> omega

theorem mod_ne_of_lt_stripeFrom {n k b y : ℕ} (hn : b % n ≠ k) (hby : b ≤ y) (hy : y < stripeFrom n k b) : y % n ≠ k := by
  intro hk
  have hb := Nat.div_add_mod' b n
  have hd := Nat.div_add_mod' y n
  have hq : b / n ≤ y / n := Nat.div_le_div_right hby
  unfold stripeFrom at hy
  split at hy
  · have := Nat.mul_le_mul_right n hq
    rw [Nat.add_zero] at hy
    omega
  · -- `y` would stand in the cycle of `b`, below `b`
    have hl : y / n * n < (b / n + 1) * n := by omega
    have : y / n = b / n := by
      have := Nat.lt_of_mul_lt_mul_right hl
      omega
    rw [this] at hd
    omega

theorem succ_mod_ne {n : ℕ} (hn : 1 < n) (b : ℕ) : b % n ≠ (b % n + 1) % n := by
  have ho : b % n < n := Nat.mod_lt _ (by omega)
  rcases Nat.lt_or_eq_of_le (Nat.succ_le_of_lt ho) with hl | heq
  · rw [Nat.mod_eq_of_lt hl]
    omega
  · rw [← Nat.succ_eq_add_one, heq, Nat.mod_self]
    omega

theorem stripeFrom_next {n : ℕ} (hn : 1 < n) (b : ℕ) : stripeFrom n ((b % n + 1) % n) b = b + 1 := by
  have hb := Nat.div_add_mod' b n
  have ho : b % n < n := Nat.mod_lt _ (by omega)
  unfold stripeFrom
  rcases Nat.lt_or_eq_of_le (Nat.succ_le_of_lt ho) with hl | heq
  · rw [Nat.mod_eq_of_lt hl, if_pos (by omega), Nat.add_zero]
    omega
  · rw [← Nat.succ_eq_add_one, heq, Nat.mod_self, if_neg (by omega), Nat.add_mul]
    omega

variable {seed stripe log : UInt32} {h H g : UInt64}

section
variable (hl : log.toNat < 8)
include hl

theorem shiftLeft_log : (1 <<< log.toUInt64 : UInt64).toNat = 2 ^ log.toNat ∧
    (1 <<< log : UInt32).toNat = 2 ^ log.toNat := by
  have ha : ∀ l < 8, ((1 <<< (UInt32.ofNat l).toUInt64 : UInt64).toNat = 2 ^ l) ∧
      (1 <<< UInt32.ofNat l : UInt32).toNat = 2 ^ l := by decide +kernel
  simpa using ha _ hl

theorem mask_log (x : UInt64) : (x &&& ((1 <<< log.toUInt64) - 1)).toNat = x.toNat % 2 ^ log.toNat := by
  have ho : (1 : UInt64) ≤ 1 <<< log.toUInt64 := by
    rw [UInt64.le_iff_toNat_le, (shiftLeft_log hl).1]
    exact Nat.one_le_two_pow
  rw [UInt64.toNat_and, UInt64.toNat_sub_of_le _ _ ho, (shiftLeft_log hl).1]
  exact Nat.and_two_pow_sub_one_eq_mod _ _

theorem two_pow_log_le : 2 ^ log.toNat ≤ 128 :=
  Nat.pow_le_pow_right (by decide) (Nat.le_of_lt_succ hl)

theorem stripe_toNat (h : UInt64) :
    (((h / pruningStripeSize) &&& ((1 <<< log.toUInt64) - 1)) + 1).toUInt32.toNat = h.toNat / 4096 % 2 ^ log.toNat + 1 := by
  have hp := two_pow_log_le hl
  rw [UInt64.toNat_toUInt32, UInt64.toNat_add, mask_log hl, UInt64.toNat_div]
  simp only [pruningStripeSize, UInt64.reduceToNat]
  omega

end

/-- What a seed of `make_pruning_seed` other than 0 says. -/
structure MadeSeed (seed stripe log : UInt32) : Prop where
  stripe_eq : getPruningStripe seed = stripe
  log_eq : getPruningLogStripes seed = log
  log_pos : 0 < log.toNat
  log_lt : log.toNat < 8
  stripe_pos : 0 < stripe.toNat
  stripe_le : stripe.toNat ≤ 2 ^ log.toNat

theorem madeSeed (ho : log.toNat < 8) (hp : 0 < stripe.toNat) (hle : stripe.toNat ≤ 2 ^ log.toNat)
    (hse : seed = (log <<< 7) ||| (stripe - 1)) : seed = 0 ∧ log.toNat = 0 ∨ MadeSeed seed stripe log := by
  have ha : ∀ l < 8, ∀ s ≤ 2 ^ l, s = 0 ∨ ((UInt32.ofNat l <<< 7) ||| (UInt32.ofNat s - 1) = 0 ∧ l = 0) ∨
      getPruningStripe ((UInt32.ofNat l <<< 7) ||| (UInt32.ofNat s - 1)) = UInt32.ofNat s ∧
      getPruningLogStripes ((UInt32.ofNat l <<< 7) ||| (UInt32.ofNat s - 1)) = UInt32.ofNat l ∧ 0 < l := by
    decide +kernel
  have := ha _ ho _ hle
  simp only [UInt32.ofNat_toNat, ← hse] at this
  rcases this with hzero | hzero | ⟨hs, hl, hl0⟩
  · omega
  · exact .inl hzero
  · exact .inr ⟨hs, hl, hl0, ho, hp, hle⟩

theorem makePruningSeed_eq_some (hs : makePruningSeed stripe log = some seed) :
    seed = 0 ∨ MadeSeed seed stripe log := by
  unfold makePruningSeed at hs
  split at hs
  · cases hs
  · rename_i hv
    have hl : log.toNat < 8 := Nat.lt_succ_of_le (UInt32.le_iff_toNat_le.mp (UInt32.not_lt.mp hv))
    split at hs
    · cases hs
    · rename_i ht
      obtain ⟨hp, hle⟩ := not_not.mp ht
      rw [UInt32.le_iff_toNat_le, (shiftLeft_log hl).2] at hle
      cases hs
      exact (madeSeed hl (UInt32.lt_iff_toNat_lt.mp hp) hle rfl).imp_left And.left

theorem add_tip_toNat (hg : g.toNat ≤ 1000000000) : (g + pruningTipBlocks).toNat = g.toNat + 5500 := by
  rw [UInt64.toNat_add]
  simp only [pruningTipBlocks, UInt64.reduceToNat]
  omega

theorem tip_iff (hg : g.toNat ≤ 1000000000) : H ≤ g + pruningTipBlocks ↔ H.toNat ≤ g.toNat + 5500 := by
  rw [UInt64.le_iff_toNat_le, add_tip_toNat hg]

theorem max_lt_iff : cryptonoteMaxBlockNumber + 1 < H ↔ 500000001 < H.toNat := by
  rfl

theorem getNextUnprunedBlockHeight_here (hh : h.toNat ≤ 500000000) (hhe : getPruningStripe seed = 0 ∨
    H.toNat ≤ h.toNat + 5500 ∨ 500000001 < H.toNat) : getNextUnprunedBlockHeight h H seed = h := by
  have hl := max_lt_iff (H := H)
  have ht := tip_iff (g := h) (H := H) (by omega)
  unfold getNextUnprunedBlockHeight
  grind

theorem PruningExact.of_here (hh : h.toNat ≤ 500000000) (hhe : getPruningStripe seed = 0 ∨ H.toNat ≤ h.toNat + 5500) :
    PruningExact h H seed := by
  have ha : ∀ g, h ≤ g → g < H ∨ g = h → hasUnprunedBlock g H seed := by
    intro g hhg hg
    rw [UInt64.le_iff_toNat_le] at hhg
    rw [UInt64.lt_iff_toNat_lt] at hg
    rcases hhe with hzero | ht
    · simp [hasUnprunedBlock, hzero]
    · have hs : g.toNat ≤ 1000000000 := by
        rcases hg with hg | rfl <;> omega
      have : H ≤ g + pruningTipBlocks := (tip_iff hs).mpr (by omega)
      simp [hasUnprunedBlock, getBlockPruningStripe, this]
  have hn : getNextUnprunedBlockHeight h H seed = h :=
    getNextUnprunedBlockHeight_here hh (hhe.imp_right .inl)
  have hp : getNextPrunedBlockHeight h H seed = some H := by
    have := tip_iff (g := h) (H := H) (by omega)
    unfold getNextPrunedBlockHeight
    grind
  constructor
  · rw [hn]
    exact .self (ha h (UInt64.le_refl h) (.inr rfl))
  · exact ⟨H, hp, .inr ⟨rfl, fun g hhg hg => ha g hhg (.inl hg)⟩⟩

section
variable (made : MadeSeed seed stripe log)
include made

theorem MadeSeed.ne_zero : stripe ≠ 0 ∧ log ≠ 0 := by
  constructor
  · rintro rfl
    exact absurd made.stripe_pos (by decide)
  · rintro rfl
    exact absurd made.log_pos (by decide)

theorem inStripe_iff (g : UInt64) : InStripe seed g ↔
    (((g / pruningStripeSize) &&& ((1 <<< log.toUInt64) - 1)) + 1).toUInt32 = stripe := by
  rw [InStripe, made.stripe_eq, made.log_eq, ← stripe_toNat made.log_lt, UInt32.toNat_inj]

theorem inStripe_iff_mod (g : UInt64) : InStripe seed g ↔ g.toNat / 4096 % 2 ^ log.toNat = stripe.toNat - 1 := by
  have := made.stripe_pos
  rw [InStripe, made.stripe_eq, made.log_eq]
  omega

theorem hasUnprunedBlock_iff (hg : g.toNat ≤ 1000000000) :
    hasUnprunedBlock g H seed ↔ H.toNat ≤ g.toNat + 5500 ∨ InStripe seed g := by
  simp only [hasUnprunedBlock, getBlockPruningStripe, InStripe, made.stripe_eq, made.log_eq, tip_iff hg, decide_eq_true_eq,
    Bool.or_eq_true, made.ne_zero.1, false_or, ← stripe_toNat made.log_lt, UInt32.toNat_inj]
  split
  · simp [*]
  · rename_i hfar
    have : (((g / pruningStripeSize) &&& ((1 <<< log.toUInt64) - 1)) + 1).toUInt32 ≠ 0 := by
      intro hzero
      have := stripe_toNat made.log_lt g
      simp [hzero] at this
    simp only [hfar, this, false_or]

theorem getNextUnprunedBlockHeight_inStripe (hi : InStripe seed h) : getNextUnprunedBlockHeight h H seed = h := by
  rw [inStripe_iff made] at hi
  unfold getNextUnprunedBlockHeight
  simp only [made.stripe_eq, made.log_eq, made.ne_zero.2, ne_eq, not_false_eq_true, if_true, hi, ite_self]

variable (hh : h.toNat ≤ 500000000)
include hh

theorem startHeight_toNat : (((h / pruningStripeSize) >>> log.toUInt64 +
        if (((h / pruningStripeSize) &&& ((1 <<< log.toUInt64) - 1)) + 1).toUInt32 < stripe then 0 else 1) *
      (pruningStripeSize <<< log.toUInt64) + (stripe - 1).toUInt64 * pruningStripeSize).toNat =
      stripeFrom (2 ^ log.toNat) (stripe.toNat - 1) (h.toNat / 4096) * 4096 := by
  have hl := made.log_lt
  have hpw := two_pow_log_le hl
  have hs := made.stripe_le
  have hp := made.stripe_pos
  have hy : (pruningStripeSize <<< log.toUInt64).toNat = 4096 * 2 ^ log.toNat := by
    have ha : ∀ l < 8, (pruningStripeSize <<< (UInt32.ofNat l).toUInt64).toNat = 4096 * 2 ^ l := by decide +kernel
    simpa using ha _ hl
  have hcs : ((h / pruningStripeSize) >>> log.toUInt64).toNat = h.toNat / 4096 / 2 ^ log.toNat := by
    rw [UInt64.toNat_shiftRight, Nat.shiftRight_eq_div_pow, UInt32.toNat_toUInt64, Nat.mod_eq_of_lt (by omega)]
    rfl
  have hb : ((stripe - 1).toUInt64 * pruningStripeSize).toNat = (stripe.toNat - 1) * 4096 := by
    have ho : (1 : UInt32) ≤ stripe := UInt32.le_iff_toNat_le.mpr hp
    rw [UInt64.toNat_mul, UInt32.toNat_toUInt64, UInt32.toNat_sub_of_le _ _ ho]
    simp only [pruningStripeSize, UInt64.reduceToNat, UInt32.reduceToNat]
    omega
  have hu : ∀ c : UInt64, c = 0 ∨ c = 1 → (((h / pruningStripeSize) >>> log.toUInt64 + c) * (pruningStripeSize <<< log.toUInt64) +
      (stripe - 1).toUInt64 * pruningStripeSize).toNat =
        ((h.toNat / 4096 / 2 ^ log.toNat + c.toNat) * 2 ^ log.toNat + (stripe.toNat - 1)) * 4096 := by
    intro c hc
    have ho : c.toNat ≤ 1 := by rcases hc with rfl | rfl <;> decide
    have hq := Nat.div_mul_le_self (h.toNat / 4096) (2 ^ log.toNat)
    have hql := Nat.div_le_self (h.toNat / 4096) (2 ^ log.toNat)
    have hn := Nat.mul_le_mul_right (2 ^ log.toNat) ho
    have hco : ((h / pruningStripeSize) >>> log.toUInt64 + c).toNat = h.toNat / 4096 / 2 ^ log.toNat + c.toNat := by
      rw [UInt64.toNat_add]
      omega
    rw [UInt64.toNat_add, UInt64.toNat_mul, hco, hy, Nat.mul_left_comm, Nat.add_mul _ _ (2 ^ _)]
    omega
  rw [hu _ (by split <;> simp), stripeFrom]
  simp only [UInt32.lt_iff_toNat_lt, stripe_toNat hl, ← Nat.lt_sub_iff_add_lt]
  split <;> rfl

variable (hfar : h.toNat + 5500 < H.toNat)
include hfar

theorem getNextPrunedBlockHeight_outside (ho : ¬ InStripe seed h) : getNextPrunedBlockHeight h H seed = some h := by
  rw [inStripe_iff made] at ho
  have ht := tip_iff (g := h) (H := H) (by omega)
  unfold getNextPrunedBlockHeight
  simp only [made.stripe_eq, made.log_eq, made.ne_zero.1, made.ne_zero.2, ht, Nat.not_le.mpr hfar, ne_eq, not_false_eq_true,
    if_true, if_false, ho]

/-- Inside its own stripe the search for a pruned block is that of the next stripe's unpruned blocks. -/
theorem getNextPrunedBlockHeight_inStripe (hi : InStripe seed h) : ∃ next nextStripe,
      getNextPrunedBlockHeight h H seed = some (getNextUnprunedBlockHeight h H next) ∧ MadeSeed next nextStripe log ∧
      nextStripe.toNat = (h.toNat / 4096 % 2 ^ log.toNat + 1) % 2 ^ log.toNat + 1 := by
  have hp := two_pow_log_le made.log_lt
  have ht := tip_iff (g := h) (H := H) (by omega)
  rw [InStripe, made.stripe_eq, made.log_eq] at hi
  have ho := stripe_toNat made.log_lt h
  rw [hi, UInt32.toNat_inj] at ho
  have hl : stripe.toNat % 2 ^ log.toNat < 2 ^ log.toNat := Nat.mod_lt _ (Nat.two_pow_pos _)
  have hn : ((1 : UInt32) + (stripe.toUInt64 &&& ((1 <<< log.toUInt64) - 1)).toUInt32).toNat = stripe.toNat % 2 ^ log.toNat + 1 := by
    rw [UInt32.toNat_add, UInt64.toNat_toUInt32, mask_log made.log_lt, UInt32.toNat_toUInt64, show (1 : UInt32).toNat = 1 from rfl]
    omega
  rw [hi]
  generalize hg : (1 : UInt32) + (stripe.toUInt64 &&& ((1 <<< log.toUInt64) - 1)).toUInt32 = nextStripe at hn
  have ha : makePruningSeed nextStripe log = some ((log <<< 7) ||| (nextStripe - 1)) := by
    have hs : ¬ 7 < log := UInt32.not_lt.mpr (UInt32.le_iff_toNat_le.mpr (Nat.le_of_lt_succ made.log_lt))
    have hr : 0 < nextStripe ∧ nextStripe ≤ 1 <<< log := by
      rw [UInt32.lt_iff_toNat_lt, UInt32.le_iff_toNat_le, (shiftLeft_log made.log_lt).2, hn]
      exact ⟨Nat.succ_pos _, hl⟩
    rw [makePruningSeed, if_neg hs, if_neg (not_not.mpr hr)]
  apply Exists.intro ((log <<< 7) ||| (nextStripe - 1))
  apply Exists.intro nextStripe
  constructor
  · unfold getNextPrunedBlockHeight
    simp only [made.stripe_eq, made.log_eq, made.ne_zero.1, made.ne_zero.2, ht, Nat.not_le.mpr hfar, ne_eq, not_true_eq_false,
      not_false_eq_true, if_true, if_false, ho, hg, ha, Option.map_some]
  · constructor
    · have hpo := made.log_pos
      rcases @madeSeed _ nextStripe _ made.log_lt (by omega) (by omega) rfl with ⟨_, hzero⟩ | hse
      · omega
      · exact hse
    · exact hn

variable (hH : H.toNat ≤ 500000001)
include hH

theorem getNextUnprunedBlockHeight_outside (ho : ¬ InStripe seed h) : (getNextUnprunedBlockHeight h H seed).toNat =
      min (stripeFrom (2 ^ log.toNat) (stripe.toNat - 1) (h.toNat / 4096) * 4096) (H.toNat - 5500) := by
  have hp := two_pow_log_le made.log_lt
  have hbound := stripeFrom_bounds (n := 2 ^ log.toNat) (k := stripe.toNat - 1) (b := h.toNat / 4096)
    (by have := made.stripe_le; have := made.stripe_pos; omega)
  have hs := startHeight_toNat (h := h) made hh
  rw [inStripe_iff made] at ho
  unfold getNextUnprunedBlockHeight
  simp only [made.stripe_eq, made.log_eq, made.ne_zero.1, made.ne_zero.2, ho, ne_eq, not_false_eq_true, if_true, if_false,
    tip_iff (g := h) (H := H) (by omega), max_lt_iff, Nat.not_le.mpr hfar, Nat.not_lt.mpr hH,
    Nat.not_lt.mpr (Nat.le_succ_of_le hh)]
  generalize ((h / pruningStripeSize) >>> log.toUInt64 + _) * _ + _ = start at hs ⊢
  have ht := add_tip_toNat (g := start) (by omega)
  have hr : ¬ H < pruningTipBlocks := by
    rw [UInt64.lt_iff_toNat_lt, show pruningTipBlocks.toNat = 5500 from rfl]
    omega
  rw [if_neg hr]
  simp only [UInt64.lt_iff_toNat_lt, ht]
  split
  · rw [UInt64.toNat_sub_of_le _ _ (UInt64.not_lt.mp hr), show pruningTipBlocks.toNat = 5500 from rfl]
    omega
  · rw [if_neg (by omega)]
    omega

theorem unpruned_outside (ho : ¬ InStripe seed h) :
    LeastFrom h (hasUnprunedBlock · H seed) (getNextUnprunedBlockHeight h H seed) := by
  have hl : stripe.toNat - 1 < 2 ^ log.toNat := by
    have := made.stripe_le
    have := made.stripe_pos
    omega
  have hn := getNextUnprunedBlockHeight_outside made hh hfar hH ho
  have hbound := stripeFrom_bounds (b := h.toNat / 4096) hl
  have hmo := stripeFrom_mod hl (h.toNat / 4096)
  generalize getNextUnprunedBlockHeight h H seed = r at hn
  rw [inStripe_iff_mod made] at ho
  constructor
  · rw [UInt64.le_iff_toNat_le]
    omega
  · constructor
    · show hasUnprunedBlock r H seed
      rw [hasUnprunedBlock_iff made (by omega), inStripe_iff_mod made]
      rcases Nat.le_total (H.toNat - 5500) (stripeFrom (2 ^ log.toNat) (stripe.toNat - 1) (h.toNat / 4096) * 4096) with hle | hle
      · omega
      · right
        rw [hn, Nat.min_eq_left hle, Nat.mul_div_cancel _ (by decide), hmo]
    · intro g hhg hg
      rw [UInt64.lt_iff_toNat_lt] at hg
      show ¬ hasUnprunedBlock g H seed
      rw [hasUnprunedBlock_iff made (by omega), inStripe_iff_mod made]
      have := mod_ne_of_lt_stripeFrom ho (Nat.div_le_div_right hhg) (y := g.toNat / 4096) (by omega)
      omega

theorem getNextPrunedBlockHeight_value (hi : InStripe seed h) :
    ∃ r, getNextPrunedBlockHeight h H seed = some r ∧ r.toNat = min ((h.toNat / 4096 + 1) * 4096) (H.toNat - 5500) := by
  obtain ⟨next, nextStripe, heq, ha, hs⟩ := getNextPrunedBlockHeight_inStripe made hh hfar hi
  have hn : 1 < 2 ^ log.toNat := Nat.one_lt_two_pow (Nat.pos_iff_ne_zero.mp made.log_pos)
  refine ⟨_, heq, ?_⟩
  rw [getNextUnprunedBlockHeight_outside ha hh hfar hH, hs, Nat.add_sub_cancel, stripeFrom_next hn]
  rw [inStripe_iff_mod ha, hs]
  exact succ_mod_ne hn _

theorem pruned_inStripe_iff (hi : InStripe seed h) : (∃ r, getNextPrunedBlockHeight h H seed = some r ∧
      (LeastFrom h (¬ hasUnprunedBlock · H seed) r ∨ r = H ∧ ∀ g, h ≤ g → g < H → hasUnprunedBlock g H seed)) ↔
      (h.toNat / 4096 + 1) * 4096 + 5500 < H.toNat := by
  obtain ⟨r, heq, hr⟩ := getNextPrunedBlockHeight_value made hh hfar hH hi
  have ha := hasUnprunedBlock_iff (H := H) made (g := r) (by omega)
  have hn : 1 < 2 ^ log.toNat := Nat.one_lt_two_pow (Nat.pos_iff_ne_zero.mp made.log_pos)
  rw [inStripe_iff_mod made] at hi
  simp only [heq, Option.some.injEq, exists_eq_left']
  constructor
  · rintro (⟨-, hp, -⟩ | ⟨rfl, -⟩)
    · rw [ha] at hp
      omega
    · omega
  · intro hb
    have ht : r.toNat / 4096 = h.toNat / 4096 + 1 := by omega
    left
    constructor
    · rw [UInt64.le_iff_toNat_le]
      omega
    · constructor
      · show ¬ hasUnprunedBlock r H seed
        have := succ_mod_ne hn (h.toNat / 4096)
        rw [ha, inStripe_iff_mod made, ht, ← Nat.mod_add_mod]
        omega
      · intro g hhg hg
        rw [UInt64.le_iff_toNat_le] at hhg
        rw [UInt64.lt_iff_toNat_lt] at hg
        rw [not_not, hasUnprunedBlock_iff made (by omega), inStripe_iff_mod made,
          show g.toNat / 4096 = h.toNat / 4096 by omega]
        exact .inr hi

end

/-- Pruning queries are exact for a node that prunes nothing, in the blocks near the tip, outside the seed's
stripe, and inside it where the next stripe starts below the blocks near the tip. -/
theorem pruning_exact_iff (hseed : seed = 0 ∨ ∃ stripe log, makePruningSeed stripe log = some seed)
    (hh : h ≤ cryptonoteMaxBlockNumber) : PruningExact h H seed ↔ getPruningStripe seed = 0 ∨ H.toNat ≤ h.toNat + 5500 ∨
      H ≤ cryptonoteMaxBlockNumber + 1 ∧ (InStripe seed h → (h.toNat / 4096 + 1) * 4096 + 5500 < H.toNat) := by
  have hh' : h.toNat ≤ 500000000 := UInt64.le_iff_toNat_le.mp hh
  have hmx : H ≤ cryptonoteMaxBlockNumber + 1 ↔ H.toNat ≤ 500000001 := UInt64.le_iff_toNat_le
  by_cases hhe : getPruningStripe seed = 0 ∨ H.toNat ≤ h.toNat + 5500
  · simp only [PruningExact.of_here hh' hhe, ← or_assoc, hhe, true_or]
  · rw [← or_assoc, or_iff_right hhe, hmx]
    obtain ⟨ht, hfar⟩ := not_or.mp hhe
    obtain ⟨stripe, log, made⟩ : ∃ stripe log, MadeSeed seed stripe log := by
      rcases hseed with rfl | ⟨stripe, log, ho⟩
      · exact absurd rfl ht
      · rcases makePruningSeed_eq_some ho with rfl | made
        · exact absurd rfl ht
        · exact ⟨stripe, log, made⟩
    have ha := hasUnprunedBlock_iff (H := H) made (g := h) (by omega)
    by_cases hH : H.toNat ≤ 500000001
    · simp only [hH, true_and]
      by_cases hi : InStripe seed h
      · simp only [hi, true_imp_iff, ← pruned_inStripe_iff made hh' (Nat.not_le.mp hfar) hH hi]
        constructor
        · exact PruningExact.pruned
        · intro hp
          constructor
          · rw [getNextUnprunedBlockHeight_inStripe made hi]
            exact .self (ha.mpr (.inr hi))
          · exact hp
      · simp only [hi, false_imp_iff, iff_true]
        constructor
        · exact unpruned_outside made hh' (Nat.not_le.mp hfar) hH hi
        · exact ⟨h, getNextPrunedBlockHeight_outside made hh' (Nat.not_le.mp hfar) hi, .inl (.self (by simp [ha, hfar, hi]))⟩
    · simp only [hH, false_and, iff_false]
      intro hx
      have hn : ∀ next, getNextUnprunedBlockHeight h H next = h := fun next =>
        getNextUnprunedBlockHeight_here hh' (.inr (.inr (Nat.not_le.mp hH)))
      have hs := hx.unpruned.2.1
      rw [hn] at hs
      have hi := (ha.mp hs).resolve_left hfar
      obtain ⟨next, _, hp, _⟩ := getNextPrunedBlockHeight_inStripe made hh' (Nat.not_le.mp hfar) hi
      rw [hn] at hp
      obtain ⟨r, hr, hl⟩ := hx.pruned
      cases hp.symm.trans hr
      rcases hl with ⟨-, hnot, -⟩ | ⟨rfl, -⟩
      · exact hnot hs
      · omega

theorem pruning_exact_next_stripe : makePruningSeed 1 3 = some 384 ∧ PruningExact 100 20000 384 :=
  ⟨by decide, (pruning_exact_iff (.inr ⟨1, 3, by decide⟩) (by decide)).mpr (.inr (.inr ⟨by decide, fun _ => by decide⟩))⟩

/-- In the last stripe of its own below the tip, the next pruned block is said to be the first of the blocks near
the tip, which has_unpruned_block has and which is not the blockchain height. -/
theorem last_stripe_names_tip_block : makePruningSeed 1 3 = some 384 ∧ getNextPrunedBlockHeight 0 9000 384 = some 3500 ∧
    hasUnprunedBlock 3500 9000 384 ∧ ¬ PruningExact 0 9000 384 := by
  refine ⟨by decide, by decide +kernel, by decide +kernel, fun hx => ?_⟩
  obtain ⟨r, hr, hl⟩ := hx.pruned
  cases (show getNextPrunedBlockHeight 0 9000 384 = some 3500 by decide +kernel).symm.trans hr
  rcases hl with ⟨-, hnot, -⟩ | ⟨heq, -⟩
  · exact hnot (by decide +kernel)
  · exact absurd heq (by decide)

end Gyro
