import Gyro.TemplateStart
import Gyro.SpinnerTx
import Gyro.FillTemplate

/-!
# Building a block on the tip

`create_block_template` without a `from_block`: the coinbase is built for a weight
guessed from its own size, up to ten times, and padded where its reward is shorter.
-/

namespace Gyro

open Keyed WordSum Exits

/-! ## The coinbase of a template -/

/-- The `for` over the tries. `build` is `construct_spinner_tx` for a block weight. -/
def coinbaseTries (build : UInt64 → Option SpinnerTx) (txsWeight : UInt64) : Nat → UInt64 → Option SpinnerTx
  | 0, _ => none
  | tries + 1, cumulativeWeight =>
    match build cumulativeWeight with
    | none => none
    | some tx =>
      if cumulativeWeight - txsWeight < tx.weight then
        coinbaseTries build txsWeight tries (txsWeight + tx.weight)
      else if tx.weight < cumulativeWeight - txsWeight then
        let delta := (cumulativeWeight - txsWeight - tx.weight).toNat
        if cumulativeWeight = txsWeight + (tx.pad delta).weight then some (tx.pad delta)
        else if cumulativeWeight + 1 ≠ txsWeight + (tx.pad delta).weight then none
        -- the length of the extra has become longer by a byte
        else if cumulativeWeight = txsWeight + (tx.pad (delta - 1)).weight then some (tx.pad (delta - 1))
        else coinbaseTries build txsWeight tries (cumulativeWeight + UInt64.ofNat (delta - 1))
      else some tx

structure CoinbaseArgs where
  keys : CoinbaseKeys
  sign : Hash → Signature
  spinData : SpinnerData
  exNonce : Blob

def CoinbaseArgs.extra (args : CoinbaseArgs) (cfg : Config) (height : UInt64) (prevId : Hash) :
    List ExtraPart :=
  (if args.exNonce = [] ∨ 255 < args.exNonce.length then [] else [.nonce args.exNonce]) ++
    if cfg.startAmountBlocks < height ∧ args.spinData.nfo.proof.txid ≠ nullHash then
      let buf := writeSpinnerData args.spinData
      [.spinData buf, .spinSig (args.sign (cnFastHash (hashBytes prevId ++ bytesOf 8 height.toBitVec ++ buf)))]
    else []

def CoinbaseArgs.extraLength (args : CoinbaseArgs) (cfg : Config) (height : UInt64) (prevId : Hash) : Nat :=
  ((args.extra cfg height prevId).flatMap ExtraPart.write).length + 33

def maxOutsOf (version : UInt8) : Nat := if 4 ≤ version then 1 else 11

def currentBlockCumulWeightMedian (env : Env) (db : Db) : UInt64 :=
  let version := currentVersion env.cfg db
  let median := if version < 10 then median (lastWeights db 100) else env.cumulWeightMedian db.entries
  if median ≤ getMinBlockWeight version then getMinBlockWeight version else median

def currentBlockCumulWeightLimit (env : Env) (db : Db) : UInt64 :=
  currentBlockCumulWeightMedian env db * 2

structure BlockTemplate where
  block : Block
  gyro : GyroType
  height : UInt64
  expectedReward : UInt64

def templateTimestamp (db : Db) (now : UInt64) (b : Block) : UInt64 :=
  if checkBlockTimestamp db now { b with timestamp := now } then now
  else median (lastTimestamps db blockchainTimestampCheckWindow)

/-- Without a `from_block`. `txid` and `id` are the hashes of the result. -/
def createBlockTemplate (env : Env) (fill : FillEnv) (args : CoinbaseArgs) (now : UInt64)
    (txid id : Hash) (st : Blockchain) (p : TxPool) : Option BlockTemplate :=
  match templateOnTip env.cfg (currentBlockCumulWeightLimit env st.db) st with
  | .error _ => none
  | .ok start =>
    if start.gyro.M = 0 then none
    else
      match fill.fillBlockTemplate env.cfg p start.height start.medianWeight
        start.alreadyGeneratedCoins start.majorVersion with
      | none => none
      | some filled =>
        let build := fun weight =>
          constructSpinnerTx env.cfg args.keys start.height start.medianWeight
            start.alreadyGeneratedCoins weight filled.fee
            (args.extra env.cfg start.height start.prevId) (maxOutsOf start.majorVersion)
            start.majorVersion
        match build filled.totalWeight with
        | none => none
        | some first =>
          match coinbaseTries build filled.totalWeight 10 (filled.totalWeight + first.weight) with
          | none => none
          | some tx =>
            let b : Block :=
              { hash := id, majorVersion := start.majorVersion, minorVersion := start.minorVersion
                timestamp := now, prevId := start.prevId, spinnerTx := tx.toTransaction txid
                txHashes := filled.txHashes }
            some { block := { b with timestamp := templateTimestamp st.db now b }
                   gyro := start.gyro, height := start.height
                   expectedReward := filled.bestCoinbase }

/-! ## What a block weighs and pays -/

def TxPool.blockWeight (p : TxPool) (b : Block) : UInt64 :=
  (p.weightsOf b.txHashes).foldl (· + ·) b.spinnerTx.weight

def TxPool.blockFee (p : TxPool) (b : Block) : UInt64 := (p.feesOf b.txHashes).foldl (· + ·) 0

structure AcceptedOnTip (env : Env) (db : Db) (p : TxPool) (b : Block) : Prop where
  weight : p.blockWeight b ≤ currentBlockCumulWeightLimit env db
  prevalidated : prevalidateSpinnerTransaction b db.height (currentVersion env.cfg db) = true
  validated : (validateSpinnerTransaction env db b db.height (p.blockWeight b) (p.blockFee b)
    (alreadyGeneratedCoins db) (currentVersion env.cfg db)).isSome = true

section
variable {build : UInt64 → Option SpinnerTx} {txsWeight c : UInt64} {tries : Nat} {tx : SpinnerTx}

theorem coinbaseTries_eq_some (h : coinbaseTries build txsWeight tries c = some tx) :
    ∃ tx₀ n, build (txsWeight + tx.weight) = some tx₀ ∧ tx = tx₀.pad n := by
  induction tries generalizing c with
  | zero => cases h
  | succ tries ih =>
    unfold coinbaseTries at h
    split at h
    · cases h
    · rename_i tx₀ hb
      split at h
      · exact ih h
      · rename_i hnot
        split at h
        · dsimp only at h
          split at h
          · rename_i hx
            cases h
            exact ⟨tx₀, _, hx ▸ hb, rfl⟩
          · split at h
            · cases h
            · split at h
              · rename_i hx
                cases h
                exact ⟨tx₀, _, hx ▸ hb, rfl⟩
              · exact ih h
        · rename_i hnot'
          cases h
          have hwe : tx.weight = c - txsWeight :=
            UInt64.le_antisymm (UInt64.not_lt.mp hnot) (UInt64.not_lt.mp hnot')
          rw [hwe, add_sub_cancel]
          exact ⟨tx, 0, hb, rfl⟩

theorem coinbaseTries_first (hb : build c = some tx) {n : Nat}
    (hp : c = txsWeight + (tx.pad n).weight) (hn : (c - txsWeight - tx.weight).toNat = n)
    (hle : tx.weight ≤ c - txsWeight) : coinbaseTries build txsWeight (tries + 1) c = some (tx.pad n) := by
  unfold coinbaseTries
  simp only [hb, UInt64.not_lt.mpr hle, if_false]
  split
  · rw [hn, if_pos hp]
  · rename_i hnot
    have hs : tx.weight = c - txsWeight := UInt64.le_antisymm hle (UInt64.not_lt.mp hnot)
    have hzero : n = 0 := by
      rw [← hn, hs, sub_self]
      rfl
    subst hzero
    rfl

end

/-! ## The checks of the coinbase -/

theorem isValidDecomposedAmount_digit {amount : UInt64} {d k : Nat} (hd : 0 < d) (hd' : d < 10) (hk : k < 20)
    (h : amount.toNat = d * 10 ^ k) : isValidDecomposedAmount amount = true := by
  unfold isValidDecomposedAmount
  rw [Bool.or_eq_true]
  by_cases hl : k = 19
  · right
    subst hl
    have ht := amount.toNat_lt
    have ho : d = 1 := by omega
    simpa [ho] using h
  · left
    rw [List.any_eq_true]
    refine ⟨k, List.mem_range.mpr (by omega), ?_⟩
    rw [List.any_eq_true]
    refine ⟨d - 1, List.mem_range.mpr (by omega), ?_⟩
    rw [decide_eq_true_eq, h, Nat.sub_add_cancel hd]

variable {keys : CoinbaseKeys} {r : UInt64} {extra : List ExtraPart} {maxOuts : Nat} {version : UInt8} {b : Block}
  {env : Env}

section
variable {height fee : UInt64} {n : Nat} {tx : SpinnerTx} {txid : Hash}

theorem amounts_toTransaction : (tx.toTransaction txid).amounts = tx.outs.map Prod.fst := by
  simp [Transaction.amounts, SpinnerTx.toTransaction]

section
variable (h : Constructed keys height fee r extra maxOuts version tx)
include h

theorem Constructed.total : WordSum.total (tx.outs.map Prod.fst) = (clampReward version (r + fee)).toNat :=
  outAmounts_total h.amounts

theorem Constructed.prevalidated (hb : b.spinnerTx = (tx.pad n).toTransaction txid) :
    prevalidateSpinnerTransaction b height version = true := by
  have ho : checkOutsOverflow b.spinnerTx.amounts = true := by
    unfold checkOutsOverflow
    rw [foldl_check, hb, amounts_toTransaction]
    refine ⟨rfl, ?_⟩
    have ht : WordSum.total ((tx.pad n).outs.map Prod.fst) = _ := h.total
    have hl := (clampReward version (r + fee)).toNat_lt
    rw [ht]
    simpa using hl
  have hv : b.spinnerTx.vin = [.gen height] := by
    rw [hb, ← h.height_eq]
    rfl
  have hu : b.spinnerTx.unlockTime = height + spinnedMoneyUnlockWindow := by
    rw [hb, ← h.unlockTime]
    rfl
  have hn : b.spinnerTx.rctTypeNull = true := by
    rw [hb]
    rfl
  have hve : (1 < b.spinnerTx.version || version < 12) = true := by
    have hx : b.spinnerTx.version = if 4 ≤ version then 2 else 1 := by
      rw [hb, ← h.version_eq]
      rfl
    rw [hx]
    by_cases hf : 4 ≤ version
    · simp [hf]
    · have hte : version < 12 := UInt8.lt_trans (UInt8.not_le.mp hf) (by decide)
      simp [hte]
  unfold prevalidateSpinnerTransaction
  simp only [hv, hve, hu, hn, ho, decide_true, Bool.or_true, Bool.true_or, Bool.and_true]

theorem Constructed.decomposed (hh : height ≠ 0) (hv : version = 3) :
    (tx.outs.map Prod.fst).all isValidDecomposedAmount = true := by
  subst hv
  have ha := h.amounts
  generalize hb : clampReward 3 (r + fee) = blockReward at ha
  have hl := blockReward.toNat_lt
  have hs := decomposeAmountIntoDigits_sum (show blockReward.toNat < 10 ^ 20 by omega) 0
  unfold outAmounts at ha
  have ht : (if (2 : UInt8) ≤ 3 then 0 else defaultDustThreshold) = 0 := by decide
  rw [if_neg (by simp [hh]), ht] at ha
  split at ha
  · cases ha
  · rw [← Option.some.inj ha, List.all_eq_true]
    intro amount hn
    obtain ⟨x, hx, rfl⟩ := List.mem_map.mp hn
    obtain ⟨d, k, hd, hd', hk, hxd⟩ := decomposeAmountIntoDigits_digit hx
    have hle := List.le_sum_of_mem hx
    apply isValidDecomposedAmount_digit hd hd' hk
    rw [UInt64.toNat_ofNat_of_lt' (by change x < 2 ^ 64; omega), hxd]

theorem Constructed.validated {env : Env} {db : Db} {weight coins r' : UInt64} (hh : height ≠ 0)
    (hb : b.spinnerTx = (tx.pad n).toTransaction txid)
    (hr : getBlockReward env.cfg height (medianWeight env db version) weight coins version = some r')
    (hle : r.toNat ≤ r'.toNat) (hs : version < 2 → r' = r) (hf : r'.toNat + fee.toNat < 2 ^ 64)
    (hu : 2 ≤ version → version < 4 → baseRewardClampThreshold.toNat ≤ r.toNat) :
    (validateSpinnerTransaction env db b height weight fee coins version).isSome = true := by
  have ha : b.spinnerTx.amounts = tx.outs.map Prod.fst := by
    rw [hb, amounts_toTransaction]
    rfl
  have hl := (clampReward version (r + fee)).toNat_lt
  have hmo : (tx.outs.map Prod.fst).foldl (· + ·) 0 = clampReward version (r + fee) := by
    rw [← UInt64.toNat_inj, sum_toNat (by rw [h.total]; exact hl), h.total]
  have hp : (r + fee).toNat = r.toNat + fee.toNat := add_toNat (by omega)
  have hp' : (r' + fee).toNat = r'.toNat + fee.toNat := add_toNat hf
  have hd : ¬ (version = 3 ∧ ¬ (tx.outs.map Prod.fst).all isValidDecomposedAmount = true) := by
    rintro ⟨ht, hnot⟩
    exact hnot (h.decomposed hh ht)
  have hc := @clampReward_toNat (r + fee) version
  rw [hp] at hc
  have hrs := Nat.mod_lt (r.toNat + fee.toNat) (show 0 < baseRewardClampThreshold.toNat by decide)
  unfold validateSpinnerTransaction
  simp only [ha, hmo, hr, hd, if_false]
  generalize clampReward version (r + fee) = money at hc ⊢
  have hnot : ¬ r' + fee < money := by
    rw [UInt64.lt_iff_toNat_lt, hc]
    split <;> omega
  rw [if_neg hnot]
  by_cases ho : version < 2
  · have hfu : r' + fee = money := by
      have htw : ¬ (2 ≤ version ∧ version < 4) := fun hv => UInt8.not_le.mpr ho hv.1
      rw [if_neg htw] at hc
      rw [← UInt64.toNat_inj, hp', hc, hs ho]
    simp [ho, hfu]
  · have hfe : fee ≤ money := by
      rw [UInt64.le_iff_toNat_le, hc]
      split
      · rename_i hv
        have hcv := hu hv.1 hv.2
        omega
      · omega
    have hr' : money - fee ≤ r' := by
      rw [UInt64.le_iff_toNat_le, UInt64.toNat_sub_of_le _ _ hfe, hc]
      split <;> omega
    simp [ho, hr']

end

end

/-- The median kept from version 10 on is at most the short-term one, and both are small. -/
structure MediansOk (env : Env) (db : Db) : Prop where
  effective : 10 ≤ currentVersion env.cfg db → env.cumulWeightMedian db.entries ≤
    zonedMedian (median (lastWeights db 100)) (currentVersion env.cfg db)
  small : (zonedMedian (median (lastWeights db 100)) (currentVersion env.cfg db)).toNat < 2 ^ 31

section
variable {db : Db} {m m' : UInt64}

theorem zonedMedian_mono (h : m ≤ zonedMedian m' version) : zonedMedian m version ≤ zonedMedian m' version := by
  by_cases hm : m < getMinBlockWeight version
  · have hg := @zonedMedian_ge m' version
    rw [zonedMedian, if_pos hm]
    exact hg
  · rw [zonedMedian, if_neg hm]
    exact h

theorem zonedMedian_idem : zonedMedian (zonedMedian m version) version = zonedMedian m version := by
  have hg := @zonedMedian_ge m version
  have hnot : ¬ zonedMedian m version < getMinBlockWeight version := by
    rw [UInt64.lt_iff_toNat_lt]
    omega
  rw [zonedMedian, if_neg hnot]

theorem currentBlockCumulWeightMedian_eq : currentBlockCumulWeightMedian env db =
    zonedMedian (if currentVersion env.cfg db < 10 then median (lastWeights db 100)
      else env.cumulWeightMedian db.entries) (currentVersion env.cfg db) := by
  unfold currentBlockCumulWeightMedian zonedMedian
  dsimp only
  generalize (if currentVersion env.cfg db < 10 then median (lastWeights db 100)
    else env.cumulWeightMedian db.entries) = m
  by_cases hl : m < getMinBlockWeight (currentVersion env.cfg db)
  · rw [if_pos hl, if_pos (UInt64.le_of_lt hl)]
  · split
    · rename_i hle
      exact UInt64.le_antisymm (UInt64.not_lt.mp hl) hle
    · rfl

section
variable (h : MediansOk env db)
include h

theorem MediansOk.le_short : currentBlockCumulWeightMedian env db ≤
    zonedMedian (median (lastWeights db 100)) (currentVersion env.cfg db) := by
  rw [currentBlockCumulWeightMedian_eq]
  apply zonedMedian_mono
  split
  · rw [UInt64.le_iff_toNat_le]
    unfold zonedMedian
    split
    · rename_i hl
      rw [UInt64.lt_iff_toNat_lt] at hl
      omega
    · exact le_refl _
  · rename_i ht
    exact h.effective (UInt8.not_lt.mp ht)

theorem MediansOk.checked : currentBlockCumulWeightMedian env db ≤
        zonedMedian (medianWeight env db (currentVersion env.cfg db)) (currentVersion env.cfg db) ∧
      (currentVersion env.cfg db < 2 → zonedMedian (medianWeight env db (currentVersion env.cfg db))
        (currentVersion env.cfg db) = currentBlockCumulWeightMedian env db) ∧
      (zonedMedian (medianWeight env db (currentVersion env.cfg db)) (currentVersion env.cfg db)).toNat < 2 ^ 31 := by
  have hle := h.le_short
  have hs := h.small
  unfold medianWeight
  by_cases ht : 12 ≤ currentVersion env.cfg db
  · have hn : ¬ currentVersion env.cfg db < 10 :=
      fun hl => UInt8.not_le.mpr hl (UInt8.le_trans (by decide) ht)
    have heq := @currentBlockCumulWeightMedian_eq env db
    rw [if_neg hn] at heq
    rw [if_pos ht, ← heq]
    refine ⟨UInt64.le_refl _, fun _ => rfl, ?_⟩
    rw [UInt64.le_iff_toNat_le] at hle
    omega
  · rw [if_neg ht]
    refine ⟨hle, ?_, hs⟩
    intro ho
    rw [currentBlockCumulWeightMedian_eq, if_pos (UInt8.lt_trans ho (by decide))]

theorem MediansOk.current_small : (currentBlockCumulWeightMedian env db).toNat < 2 ^ 31 := by
  have hle := h.le_short
  have hs := h.small
  rw [UInt64.le_iff_toNat_le] at hle
  omega

theorem MediansOk.limit :
    (currentBlockCumulWeightLimit env db).toNat = 2 * (currentBlockCumulWeightMedian env db).toNat := by
  have hs := h.current_small
  have ht : (2 : UInt64).toNat = 2 := rfl
  unfold currentBlockCumulWeightLimit
  rw [UInt64.toNat_mul, ht]
  omega

end

theorem zonedMedian_current : zonedMedian (currentBlockCumulWeightMedian env db) (currentVersion env.cfg db) =
    currentBlockCumulWeightMedian env db := by
  rw [currentBlockCumulWeightMedian_eq, zonedMedian_idem]

theorem median_ge : 20000 ≤ (currentBlockCumulWeightMedian env db).toNat := by
  have hg := @zonedMedian_ge (currentBlockCumulWeightMedian env db) (currentVersion env.cfg db)
  have hz := getMinBlockWeight_bounds (currentVersion env.cfg db)
  rw [zonedMedian_current] at hg
  omega

end

/-! ## The reward on the tip -/

def rewardOnTip (env : Env) (db : Db) (weight : UInt64) : Option UInt64 :=
  getBlockReward env.cfg db.height (currentBlockCumulWeightMedian env db) weight
    (alreadyGeneratedCoins db) (currentVersion env.cfg db)

def emptyReward (env : Env) (db : Db) : UInt64 := (rewardOnTip env db 0).getD 0

section
variable {db : Db} {weight : UInt64}

theorem rewardOnTip_atStart (hs : AtStart env.cfg db.height) : ∃ r, ∀ weight, rewardOnTip env db weight = some r := by
  obtain ⟨r, hr⟩ := getBlockReward_atStart hs
  exact ⟨r, fun weight => hr _ _ _ _⟩

variable (h : MediansOk env db)
include h

theorem MediansOk.rewardOnTip_eq (ht : ¬ AtStart env.cfg db.height) :
    rewardOnTip env db weight = some r ↔ weight.toNat ≤ 2 * (currentBlockCumulWeightMedian env db).toNat ∧
        r.toNat = penalized (baseReward env.cfg (alreadyGeneratedCoins db)).toNat
          (currentBlockCumulWeightMedian env db).toNat weight.toNat := by
  have hs := h.current_small.le.trans (by decide : 2 ^ 31 ≤ 2 ^ 32)
  rw [← zonedMedian_current] at hs
  rw [rewardOnTip, getBlockReward_eq_some ht hs, zonedMedian_current]

theorem MediansOk.rewardOnTip_some (ht : ¬ AtStart env.cfg db.height)
    (hwe : weight.toNat ≤ 2 * (currentBlockCumulWeightMedian env db).toNat) :
    ∃ r, rewardOnTip env db weight = some r := by
  have hs := h.current_small.le.trans (by decide : 2 ^ 31 ≤ 2 ^ 32)
  rw [← zonedMedian_current] at hs
  rw [rewardOnTip, getBlockReward_eq ht hs, zonedMedian_current]
  exact ⟨_, if_pos hwe⟩

theorem emptyReward_eq : rewardOnTip env db 0 = some (emptyReward env db) := by
  obtain ⟨r, hr⟩ : ∃ r, rewardOnTip env db 0 = some r := by
    by_cases hs : AtStart env.cfg db.height
    · obtain ⟨r, hr⟩ := rewardOnTip_atStart hs
      exact ⟨r, hr 0⟩
    · exact h.rewardOnTip_some hs (Nat.zero_le _)
  rw [emptyReward, hr]
  rfl

theorem MediansOk.emptyReward_toNat (hs : ¬ AtStart env.cfg db.height) :
    (emptyReward env db).toNat = (baseReward env.cfg (alreadyGeneratedCoins db)).toNat := by
  rw [((h.rewardOnTip_eq hs).mp (emptyReward_eq h)).2]
  exact if_pos (Nat.zero_le _)

end

/-! ## Blocks that are accepted -/

section
variable {db : Db} {p : TxPool} {f : Filled} {n : Nat} {tx : SpinnerTx} {txid : Hash} {maxTotal : UInt64}

theorem foldl_add_acc (xs : List UInt64) (acc : UInt64) : xs.foldl (· + ·) acc = xs.foldl (· + ·) 0 + acc := by
  rw [← UInt64.toNat_inj, UInt64.toNat_add, foldl_add_mod, foldl_add_mod]
  have hzero : (0 : UInt64).toNat = 0 := rfl
  omega

theorem MediansOk.reward_checked (h : MediansOk env db) {weight : UInt64} (hr : rewardOnTip env db weight = some r) :
    ∃ r', getBlockReward env.cfg db.height (medianWeight env db (currentVersion env.cfg db)) weight
        (alreadyGeneratedCoins db) (currentVersion env.cfg db) = some r' ∧
      r.toNat ≤ r'.toNat ∧ r'.toNat ≤ (emptyReward env db).toNat ∧ (currentVersion env.cfg db < 2 → r' = r) := by
  by_cases ht : AtStart env.cfg db.height
  · obtain ⟨s, hs⟩ := getBlockReward_atStart ht
    have hem := emptyReward_eq h
    rw [rewardOnTip, hs] at hr hem
    cases hr
    cases hem
    exact ⟨_, hs _ _ _ _, le_refl _, le_refl _, fun _ => rfl⟩
  · obtain ⟨hle, ha, hsm⟩ := h.checked
    have hp := @median_ge env db
    obtain ⟨hwe, hv⟩ := (h.rewardOnTip_eq ht).mp hr
    rw [UInt64.le_iff_toNat_le] at hle
    have hn := @penalized_mono (baseReward env.cfg (alreadyGeneratedCoins db)).toNat _ _ _
      (by omega) hle hwe
    have hb := @penalized_le (baseReward env.cfg (alreadyGeneratedCoins db)).toNat
      (zonedMedian (medianWeight env db (currentVersion env.cfg db)) (currentVersion env.cfg db)).toNat
      weight.toNat (by omega)
    have hem := h.emptyReward_toNat ht
    obtain ⟨r', hr'⟩ : ∃ r', getBlockReward env.cfg db.height
        (medianWeight env db (currentVersion env.cfg db)) weight (alreadyGeneratedCoins db)
        (currentVersion env.cfg db) = some r' := by
      rw [getBlockReward_eq ht (hsm.le.trans (by decide : 2 ^ 31 ≤ 2 ^ 32)), if_pos (by omega)]
      exact ⟨_, rfl⟩
    have hc := ((getBlockReward_eq_some ht (hsm.le.trans (by decide : 2 ^ 31 ≤ 2 ^ 32))).mp hr').2
    refine ⟨r', hr', by omega, by omega, ?_⟩
    intro ho
    rw [← UInt64.toNat_inj, hc, hv, ha ho]

/-- A coinbase that was built for the weight of its block is accepted. -/
theorem accepted_of_constructed (hme : MediansOk env db) (hh : db.height ≠ 0)
    (hf : FilledOk p maxTotal p.sorted f) (hb : b.spinnerTx = (tx.pad n).toTransaction txid)
    (ht : b.txHashes = f.txHashes) (h : Constructed keys db.height f.fee r extra maxOuts (currentVersion env.cfg db) tx)
    (hr : rewardOnTip env db (f.totalWeight + (tx.pad n).weight) = some r)
    (hl : f.totalWeight + (tx.pad n).weight ≤ currentBlockCumulWeightLimit env db)
    (hi : (emptyReward env db).toNat + f.fee.toNat < 2 ^ 64)
    (hc : 2 ≤ currentVersion env.cfg db → currentVersion env.cfg db < 4 → baseRewardClampThreshold.toNat ≤ r.toNat) :
    AcceptedOnTip env db p b := by
  have hwe : p.blockWeight b = f.totalWeight + (tx.pad n).weight := by
    unfold TxPool.blockWeight
    rw [foldl_add_acc, ht, ← hf.weight, hb]
    rfl
  have hfe : p.blockFee b = f.fee := by
    unfold TxPool.blockFee
    rw [ht, ← hf.fee]
  obtain ⟨r', hr', hle, hl₀, hs⟩ := hme.reward_checked hr
  constructor
  · rw [hwe]
    exact hl
  · exact h.prevalidated hb
  · rw [hwe, hfe]
    exact h.validated hh hb hr' hle hs (by omega) hc

end

/-! ## The parts of a template -/

def coinbaseOnTip (env : Env) (args : CoinbaseArgs) (db : Db) (fee weight : UInt64) : Option SpinnerTx :=
  constructSpinnerTx env.cfg args.keys db.height (currentBlockCumulWeightMedian env db)
    (alreadyGeneratedCoins db) weight fee (args.extra env.cfg db.height db.topBlockHash)
    (maxOutsOf (currentVersion env.cfg db)) (currentVersion env.cfg db)

def fillOnTip (env : Env) (fill : FillEnv) (db : Db) (p : TxPool) : Option Filled :=
  fill.fillBlockTemplate env.cfg p db.height (currentBlockCumulWeightMedian env db)
    (alreadyGeneratedCoins db) (currentVersion env.cfg db)

variable {fill : FillEnv} {args : CoinbaseArgs} {now : UInt64} {txid id : Hash} {st : Blockchain} {p : TxPool}
  {t : BlockTemplate} {f : Filled} {first tx : SpinnerTx}

theorem coinbaseOnTip_eq_some {db : Db} {fee weight : UInt64}
    (h : coinbaseOnTip env args db fee weight = some tx) : ∃ r, rewardOnTip env db weight = some r ∧
      Constructed args.keys db.height fee r (args.extra env.cfg db.height db.topBlockHash)
        (maxOutsOf (currentVersion env.cfg db)) (currentVersion env.cfg db) tx :=
  constructSpinnerTx_eq_some h

section
variable (hme : MediansOk env st.db) (hc : st.db.entries ≠ [])
include hme hc

theorem templateOnTip_ok : ∃ start, templateOnTip env.cfg (currentBlockCumulWeightLimit env st.db) st = .ok start ∧
      start.height = st.db.height ∧ start.medianWeight = currentBlockCumulWeightMedian env st.db ∧
      start.alreadyGeneratedCoins = alreadyGeneratedCoins st.db ∧
      start.majorVersion = currentVersion env.cfg st.db ∧ start.prevId = st.db.topBlockHash ∧
      start.gyro = currentGyro st.db := by
  have hh : currentBlockCumulWeightLimit env st.db / 2 = currentBlockCumulWeightMedian env st.db := by
    have ht : (2 : UInt64).toNat = 2 := rfl
    rw [← UInt64.toNat_inj, UInt64.toNat_div, hme.limit, ht]
    omega
  obtain ⟨e, he⟩ : ∃ e, st.db.entries.getLast? = some e :=
    ⟨_, List.getLast?_eq_getLast_of_ne_nil hc⟩
  have ha : st.db.entryAt (st.db.height - 1) = some e := (Db.entryAt_tip hc).trans he
  have ho : alreadyGeneratedCoins st.db = e.coins := by
    unfold alreadyGeneratedCoins
    rw [he]
  unfold templateOnTip
  rw [ha, hh, ho]
  exact ⟨_, rfl, rfl, rfl, rfl, rfl, rfl, rfl⟩

theorem createBlockTemplate_eq_some (h : createBlockTemplate env fill args now txid id st p = some t) :
    ∃ f first tx, fillOnTip env fill st.db p = some f ∧ coinbaseOnTip env args st.db f.fee f.totalWeight = some first ∧
      coinbaseTries (coinbaseOnTip env args st.db f.fee) f.totalWeight 10 (f.totalWeight + first.weight) = some tx ∧
      t.block.spinnerTx = tx.toTransaction txid ∧ t.block.txHashes = f.txHashes := by
  obtain ⟨start, hs, hh, hd, ho, hv, hp, _⟩ := templateOnTip_ok hme hc
  unfold createBlockTemplate at h
  rw [hs] at h
  simp only [hh, hd, ho, hv, hp] at h
  split at h
  · cases h
  · split at h
    · cases h
    · rename_i f hf
      split at h
      · cases h
      · rename_i first hr
        split at h
        · cases h
        · rename_i tx ht
          cases h
          exact ⟨f, first, tx, hf, hr, ht, rfl, rfl⟩

theorem createBlockTemplate_some (hg : (currentGyro st.db).M ≠ 0) (hf : fillOnTip env fill st.db p = some f)
    (hr : coinbaseOnTip env args st.db f.fee f.totalWeight = some first)
    (ht : coinbaseTries (coinbaseOnTip env args st.db f.fee) f.totalWeight 10
      (f.totalWeight + first.weight) = some tx) : ∃ t, createBlockTemplate env fill args now txid id st p = some t ∧
      t.block.spinnerTx = tx.toTransaction txid ∧ t.block.txHashes = f.txHashes := by
  obtain ⟨start, hs, hh, hd, ho, hv, hp, hg'⟩ :=
    templateOnTip_ok hme hc
  unfold fillOnTip at hf
  unfold coinbaseOnTip at hr
  change coinbaseTries (fun weight => constructSpinnerTx env.cfg args.keys st.db.height
    (currentBlockCumulWeightMedian env st.db) (alreadyGeneratedCoins st.db) weight f.fee
    (args.extra env.cfg st.db.height st.db.topBlockHash) (maxOutsOf (currentVersion env.cfg st.db))
    (currentVersion env.cfg st.db)) f.totalWeight 10 (f.totalWeight + first.weight) = some tx at ht
  unfold createBlockTemplate
  simp only [hs, hh, hd, ho, hv, hp, hg', hg, if_false, hf, hr, ht]
  exact ⟨_, rfl, rfl, rfl⟩

end

/-! ## Every template that is returned -/

variable {db : Db}

theorem height_ne_zero (hc : db.entries ≠ []) : db.height ≠ 0 := by
  have hp := List.length_pos_iff.mpr hc
  intro hzero
  have hl := Db.height_toNat db
  rw [hzero] at hl
  have hn : (0 : UInt64).toNat = 0 := rfl
  omega

variable {seen : List SortedEntry}

theorem FilledOk.fee_le {maxTotal : UInt64} (h : FilledOk p maxTotal seen f) :
    f.fee.toNat ≤ total ((p.listed seen).map (·.info.fee)) := by
  have hle := foldl_add_le (p.feesOf f.txHashes) 0
  have hmm := h.fees_le
  have hzero : (0 : UInt64).toNat = 0 := rfl
  rw [h.fee]
  omega

theorem FilledOk.weight_le {maxTotal : UInt64} (h : FilledOk p maxTotal seen f) :
    f.totalWeight.toNat ≤ min maxTotal.toNat (total ((p.listed seen).map (·.info.weight))) := by
  have hle := foldl_add_le (p.weightsOf f.txHashes) 0
  have hmm := h.weights_le
  have hf := h.fits
  have hzero : (0 : UInt64).toNat = 0 := rfl
  rw [← h.weight] at hle
  rw [UInt64.le_iff_toNat_le] at hf
  omega

/-- A template that is returned above the start blocks is accepted, at versions that do not cut the
reward. -/
theorem returned_template_accepted (hme : MediansOk env st.db) (hc : st.db.entries ≠ [])
    (hs : ¬ AtStart env.cfg st.db.height) (hv : currentVersion env.cfg st.db < 2 ∨ 4 ≤ currentVersion env.cfg st.db)
    (hfs : (baseReward env.cfg (alreadyGeneratedCoins st.db)).toNat +
      total ((p.listed p.sorted).map (·.info.fee)) < 2 ^ 64)
    (h : createBlockTemplate env fill args now txid id st p = some t) : AcceptedOnTip env st.db p t.block := by
  obtain ⟨f, first, tx, hf, _, ht, hb, hts⟩ := createBlockTemplate_eq_some hme hc h
  obtain ⟨tx₀, n, hu, rfl⟩ := coinbaseTries_eq_some ht
  obtain ⟨r, hr, hn⟩ := coinbaseOnTip_eq_some hu
  have ho := fillBlockTemplate_ok hf
  have hfe := ho.fee_le
  have ha := hme.emptyReward_toNat hs
  apply accepted_of_constructed hme (height_ne_zero hc) ho hb hts hn hr
  · rw [UInt64.le_iff_toNat_le, hme.limit]
    exact ((hme.rewardOnTip_eq hs).mp hr).1
  · omega
  · intro htw hfo
    rcases hv with hon | hl
    · exact (UInt8.not_le.mpr hon htw).elim
    · exact (UInt8.not_le.mpr hfo hl).elim

end Gyro
