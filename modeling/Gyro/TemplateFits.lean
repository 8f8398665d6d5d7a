import Gyro.BlockTemplate
import Gyro.PoolAccounting

/-!
# When a template is returned

A template needs a coinbase that fits with the transactions chosen before it. The bytes
kept free do not depend on the spinner data, so a long proof leaves no room.
-/

namespace Gyro

open Keyed WordSum Exits Runs List

/-- At most this much for a coinbase: 43 bytes for an output, and 35 for the rest. -/
def maxCoinbaseWeight (version : UInt8) (extraLength : Nat) : Nat :=
  extraLength + 43 * maxOutsOf version + 35

def roomTaken (env : Env) (args : CoinbaseArgs) (db : Db) (p : TxPool) : Nat :=
  min (maxTotalWeight (currentBlockCumulWeightMedian env db) (currentVersion env.cfg db)).toNat
      (total ((p.listed p.sorted).map (·.info.weight))) +
    maxCoinbaseWeight (currentVersion env.cfg db) (args.extraLength env.cfg db.height db.topBlockHash)

/-- Reward and fees can be paid, at versions 2 and 3 beyond what is cut off; and the reward does not
depend on the weight, or nothing is over the median, or the block has one output, stays within the
limit, and 43 bytes more do not lengthen the length of its extra. -/
structure TemplateFits (env : Env) (args : CoinbaseArgs) (db : Db) (p : TxPool) : Prop where
  gyro : (currentGyro db).M ≠ 0
  fees : (emptyReward env db).toNat + total ((p.listed p.sorted).map (·.info.fee)) <
    if 4 ≤ currentVersion env.cfg db then 2 ^ 64 else 10 ^ 19
  cut : 2 ≤ currentVersion env.cfg db → currentVersion env.cfg db < 4 →
    baseRewardClampThreshold.toNat ≤ (emptyReward env db).toNat
  room : AtStart env.cfg db.height ∨
    roomTaken env args db p ≤ (currentBlockCumulWeightMedian env db).toNat ∨
    4 ≤ currentVersion env.cfg db ∧
      roomTaken env args db p ≤ 2 * (currentBlockCumulWeightMedian env db).toNat ∧
      lengthSize (args.extraLength env.cfg db.height db.topBlockHash) =
        lengthSize (args.extraLength env.cfg db.height db.topBlockHash + 43)

section
variable {env : Env} {fill : FillEnv} {args : CoinbaseArgs} {now : UInt64} {txid id : Hash}
  {st : Blockchain} {db : Db} {p : TxPool} {t : BlockTemplate} {f : Filled} {r weight fee : UInt64}
  {tx : SpinnerTx}

theorem maxOutsOf_bounds (version : UInt8) : 1 ≤ maxOutsOf version ∧ maxOutsOf version ≤ 11 := by
  unfold maxOutsOf
  split <;> decide

theorem weight_toNat (h : tx.blob.length < 2 ^ 64) : tx.weight.toNat = tx.blob.length :=
  UInt64.toNat_ofNat_of_lt' h

theorem cumulative_toNat (h : weight.toNat + tx.blob.length < 2 ^ 64) :
    (weight + tx.weight).toNat = weight.toNat + tx.blob.length := by
  have hwe : tx.weight.toNat = tx.blob.length := weight_toNat (by omega)
  rw [add_toNat (by omega), hwe]

theorem outAmounts_tip {height : UInt64} {version : UInt8}
    (h : r.toNat + fee.toNat < if 4 ≤ version then 2 ^ 64 else 10 ^ 19) :
    ∃ amounts, outAmounts height (maxOutsOf version) version (clampReward version (r + fee)) = some amounts := by
  unfold maxOutsOf
  by_cases hf : 4 ≤ version
  · rw [if_pos hf]
    exact ⟨_, outAmounts_single hf⟩
  · rw [if_neg hf] at h ⊢
    have hp : (r + fee).toNat = r.toNat + fee.toNat := add_toNat (by omega)
    have hc := @clampReward_toNat (r + fee) version
    have ht : baseRewardClampThreshold.toNat = 10 ^ 8 := rfl
    rw [ht] at hc
    apply outAmounts_some
    · rw [hc]
      split <;> omega
    · intro htw
      rw [hc, if_pos ⟨htw, UInt8.not_le.mp hf⟩]
      omega

theorem coinbaseOnTip_some (hk : ∀ n, (args.keys.outKey n).isSome = true) (hr : rewardOnTip env db weight = some r)
    (hf : r.toNat + fee.toNat < if 4 ≤ currentVersion env.cfg db then 2 ^ 64 else 10 ^ 19) :
    ∃ tx, coinbaseOnTip env args db fee weight = some tx ∧
      Constructed args.keys db.height fee r (args.extra env.cfg db.height db.topBlockHash)
        (maxOutsOf (currentVersion env.cfg db)) (currentVersion env.cfg db) tx := by
  obtain ⟨amounts, ha⟩ := @outAmounts_tip r fee db.height (currentVersion env.cfg db) hf
  obtain ⟨tx, ht⟩ := @constructSpinnerTx_some env.cfg args.keys db.height
    (currentBlockCumulWeightMedian env db) (alreadyGeneratedCoins db) weight fee r
    (args.extra env.cfg db.height db.topBlockHash) _ _ amounts hk hr ha
  obtain ⟨r', hr', hc⟩ := coinbaseOnTip_eq_some ht
  rw [hr] at hr'
  cases hr'
  exact ⟨tx, ht, hc⟩

theorem Constructed.tip_size (h : Constructed args.keys db.height fee r (args.extra env.cfg db.height db.topBlockHash)
      (maxOutsOf (currentVersion env.cfg db)) (currentVersion env.cfg db) tx) :
    tx.extraBytes.length = args.extraLength env.cfg db.height db.topBlockHash ∧
      tx.blob.length ≤ maxCoinbaseWeight (currentVersion env.cfg db)
        (args.extraLength env.cfg db.height db.topBlockHash) := by
  obtain ⟨hi, ha⟩ := maxOutsOf_bounds (currentVersion env.cfg db)
  have hs := h.size_le hi ha
  have hx : tx.extraBytes.length = args.extraLength env.cfg db.height db.topBlockHash :=
    h.extraBytes_length
  rw [hx] at hs
  exact ⟨hx, hs⟩

structure Settled (env : Env) (args : CoinbaseArgs) (db : Db) (f : Filled) (r : UInt64) (first tx : SpinnerTx)
    (n : Nat) : Prop where
  first_eq : coinbaseOnTip env args db f.fee f.totalWeight = some first
  tries : coinbaseTries (coinbaseOnTip env args db f.fee) f.totalWeight 10
    (f.totalWeight + first.weight) = some (tx.pad n)
  constructed : Constructed args.keys db.height f.fee r (args.extra env.cfg db.height db.topBlockHash)
    (maxOutsOf (currentVersion env.cfg db)) (currentVersion env.cfg db) tx
  reward : rewardOnTip env db (f.totalWeight + (tx.pad n).weight) = some r
  weight_le : (f.totalWeight + (tx.pad n).weight).toNat ≤ f.totalWeight.toNat +
    maxCoinbaseWeight (currentVersion env.cfg db) (args.extraLength env.cfg db.height db.topBlockHash)

theorem settled_of_constant (hk : ∀ n, (args.keys.outKey n).isSome = true)
    (ho : f.totalWeight.toNat + maxCoinbaseWeight (currentVersion env.cfg db)
      (args.extraLength env.cfg db.height db.topBlockHash) < 2 ^ 64)
    (hr : ∀ weight : UInt64, weight.toNat ≤ f.totalWeight.toNat +
        maxCoinbaseWeight (currentVersion env.cfg db) (args.extraLength env.cfg db.height db.topBlockHash) →
      rewardOnTip env db weight = some r)
    (hf : r.toNat + f.fee.toNat < if 4 ≤ currentVersion env.cfg db then 2 ^ 64 else 10 ^ 19) :
    ∃ tx, Settled env args db f r tx tx 0 := by
  have hr₁ := hr f.totalWeight (Nat.le_add_right _ _)
  obtain ⟨tx, ht, hc⟩ := coinbaseOnTip_some hk hr₁ hf
  obtain ⟨_, hi⟩ := hc.tip_size
  have hu := @cumulative_toNat f.totalWeight tx (by omega)
  have hr₂ := hr (f.totalWeight + tx.weight) (by omega)
  have hs : coinbaseOnTip env args db f.fee (f.totalWeight + tx.weight) = some tx := by
    rw [← ht]
    unfold rewardOnTip at hr₁ hr₂
    unfold coinbaseOnTip constructSpinnerTx
    rw [hr₁, hr₂]
  have hre : f.totalWeight + tx.weight - f.totalWeight = tx.weight := add_sub_cancel_left _ _
  have hp := tx.pad_zero
  have htr : coinbaseTries (coinbaseOnTip env args db f.fee) f.totalWeight (9 + 1)
      (f.totalWeight + tx.weight) = some (tx.pad 0) := by
    apply coinbaseTries_first hs
    · rw [hp]
    · rw [hre, sub_self]
      rfl
    · rw [hre]
      exact UInt64.le_refl _
  refine ⟨tx, ht, htr, hc, ?_, ?_⟩
  · exact hr₂
  · rw [hp]
    omega

theorem settled_of_single (hk : ∀ n, (args.keys.outKey n).isSome = true) (hf : 4 ≤ currentVersion env.cfg db)
    (hro : f.totalWeight.toNat + maxCoinbaseWeight (currentVersion env.cfg db)
      (args.extraLength env.cfg db.height db.topBlockHash) < 2 ^ 63)
    (hr : ∀ weight : UInt64, weight.toNat ≤ f.totalWeight.toNat +
        maxCoinbaseWeight (currentVersion env.cfg db) (args.extraLength env.cfg db.height db.topBlockHash) →
      ∃ r, rewardOnTip env db weight = some r ∧ r.toNat + f.fee.toNat < 2 ^ 64)
    (ha : ∀ w w' r r', w.toNat ≤ w'.toNat → rewardOnTip env db w = some r →
      rewardOnTip env db w' = some r' → r'.toNat ≤ r.toNat)
    (hl : lengthSize (args.extraLength env.cfg db.height db.topBlockHash) =
      lengthSize (args.extraLength env.cfg db.height db.topBlockHash + 43)) :
    ∃ r first tx n, Settled env args db f r first tx n := by
  obtain ⟨r₁, hr₁, hf₁⟩ := hr f.totalWeight (Nat.le_add_right _ _)
  obtain ⟨first, hfr, hc₁⟩ := coinbaseOnTip_some hk hr₁ (by rw [if_pos hf]; exact hf₁)
  obtain ⟨he₁, hs₁⟩ := hc₁.tip_size
  have hw₁ : first.weight.toNat = first.blob.length := weight_toNat (by omega)
  have hc := @cumulative_toNat f.totalWeight first (by omega)
  obtain ⟨r₂, hr₂, hf₂⟩ := hr (f.totalWeight + first.weight) (by omega)
  obtain ⟨tx, ht, hc₂⟩ := coinbaseOnTip_some hk hr₂ (by rw [if_pos hf]; exact hf₂)
  obtain ⟨he₂, hs₂⟩ := hc₂.tip_size
  have hpa : r₂ + f.fee ≤ r₁ + f.fee := by
    have hle : r₂.toNat ≤ r₁.toNat := ha _ _ _ _ (by omega) hr₁ hr₂
    rw [UInt64.le_iff_toNat_le, add_toNat hf₁, add_toNat hf₂]
    omega
  have ho : maxOutsOf (currentVersion env.cfg db) = 1 := if_pos hf
  have hi₁ := Constructed.size_single (ho ▸ hc₁) hf
  have hi₂ := Constructed.size_single (ho ▸ hc₂) hf
  have hmo := outSize_mono hpa
  have hma := outSize_le (r₁ + f.fee)
  have hb₁ := first.blob_length
  have hb₂ := tx.blob_length
  rw [he₁] at hb₁
  rw [he₂] at hb₂
  -- the zero bytes replace what the shorter amount leaves
  generalize hn : outSize (r₁ + f.fee) - outSize (r₂ + f.fee) = n
  have hs : (tx.pad n).blob.length = first.blob.length := by
    have hlo := @lengthSize_mono (args.extraLength env.cfg db.height db.topBlockHash)
      (args.extraLength env.cfg db.height db.topBlockHash + n) (by omega)
      (by omega)
    have hh := @lengthSize_mono (args.extraLength env.cfg db.height db.topBlockHash + n)
      (args.extraLength env.cfg db.height db.topBlockHash + 43) (by omega)
      (by omega)
    rw [tx.pad_blob_length, he₂]
    omega
  have hp : (tx.pad n).weight = first.weight := congrArg UInt64.ofNat hs
  have hw₂ : tx.weight.toNat = tx.blob.length := weight_toNat (by omega)
  have hle : tx.weight ≤ first.weight := by
    rw [UInt64.le_iff_toNat_le]
    omega
  have hre : f.totalWeight + first.weight - f.totalWeight = first.weight := add_sub_cancel_left _ _
  have htr : coinbaseTries (coinbaseOnTip env args db f.fee) f.totalWeight (9 + 1)
      (f.totalWeight + first.weight) = some (tx.pad n) := by
    apply coinbaseTries_first ht
    · rw [hp]
    · rw [hre, UInt64.toNat_sub_of_le _ _ hle]
      omega
    · rw [hre]
      exact hle
  refine ⟨r₂, first, tx, n, hfr, htr, hc₂, ?_, ?_⟩
  · rw [hp]
    exact hr₂
  · rw [hp]
    omega

theorem maxTotalWeight_le {median : UInt64} {version : UInt8} (hi : 20000 ≤ median.toNat)
    (ha : median.toNat < 2 ^ 31) : (maxTotalWeight median version).toNat + 600 ≤ 2 * median.toNat ∧
      (version < 5 → (maxTotalWeight median version).toNat + 6000 ≤ 2 * median.toNat) := by
  have hr : coinbaseBlobReservedSize.toNat = 600 := rfl
  unfold maxTotalWeight
  by_cases hf : 5 ≤ version
  · have hd : (2 * median).toNat = 2 * median.toNat := by
      exact Nat.mod_eq_of_lt (by change 2 * median.toNat < _; omega)
    rw [if_pos hf, UInt64.toNat_sub_of_le _ _ (by rw [UInt64.le_iff_toNat_le]; omega)]
    refine ⟨by omega, ?_⟩
    intro hl
    exact (UInt8.not_le.mpr hl hf).elim
  · have hs : (130 * median / 100).toNat = 130 * median.toNat / 100 := by
      rw [UInt64.toNat_div]
      change 130 * median.toNat % 2 ^ 64 / 100 = _
      rw [Nat.mod_eq_of_lt (by omega)]
    rw [if_neg hf, UInt64.toNat_sub_of_le _ _ (by rw [UInt64.le_iff_toNat_le]; omega)]
    exact ⟨by omega, fun _ => by omega⟩

theorem extraLength_start (hs : AtStart env.cfg db.height) (hn : args.exNonce.length ≤ 127) :
    args.extraLength env.cfg db.height db.topBlockHash ≤ 162 := by
  unfold CoinbaseArgs.extraLength CoinbaseArgs.extra
  have hb : ¬ (env.cfg.startAmountBlocks < db.height ∧ args.spinData.nfo.proof.txid ≠ nullHash) :=
    fun h => UInt64.not_lt.mpr hs.2 h.1
  split
  · simp
  · simp [ExtraPart.write]
    omega

theorem start_room (hme : MediansOk env db) (hs : AtStart env.cfg db.height)
    (hn : args.exNonce.length ≤ 127) (hwe : f.totalWeight.toNat ≤
      (maxTotalWeight (currentBlockCumulWeightMedian env db) (currentVersion env.cfg db)).toNat) :
    f.totalWeight.toNat + maxCoinbaseWeight (currentVersion env.cfg db)
      (args.extraLength env.cfg db.height db.topBlockHash) ≤ 2 * (currentBlockCumulWeightMedian env db).toNat := by
  obtain ⟨hsn, hmn⟩ := @maxTotalWeight_le (currentBlockCumulWeightMedian env db)
    (currentVersion env.cfg db) median_ge hme.current_small
  have hx := extraLength_start hs hn
  unfold maxCoinbaseWeight maxOutsOf
  by_cases hf : 4 ≤ currentVersion env.cfg db
  · rw [if_pos hf]
    omega
  · rw [if_neg hf]
    have hr := hmn (UInt8.lt_trans (UInt8.not_le.mp hf) (by decide))
    have hc : args.extraLength env.cfg db.height db.topBlockHash + 43 * 11 + 35 ≤ 6000 := by
      omega
    exact le_trans (Nat.add_le_add hwe hc) hr

section
variable (hme : MediansOk env db) (hs : ¬ AtStart env.cfg db.height)
include hme hs

theorem reward_free (hwe : weight.toNat ≤ (currentBlockCumulWeightMedian env db).toNat) :
    rewardOnTip env db weight = some (emptyReward env db) := by
  rw [hme.rewardOnTip_eq hs, hme.emptyReward_toNat hs]
  exact ⟨by omega, (if_pos hwe).symm⟩

theorem reward_anti {w w' r r' : UInt64} (hle : w.toNat ≤ w'.toNat) (hr : rewardOnTip env db w = some r)
    (hr' : rewardOnTip env db w' = some r') : r'.toNat ≤ r.toNat := by
  rw [hme.rewardOnTip_eq hs] at hr hr'
  rw [hr.2, hr'.2]
  exact penalized_anti hle hr'.1

theorem reward_penalized (hwe : weight.toNat ≤ 2 * (currentBlockCumulWeightMedian env db).toNat) :
    ∃ r, rewardOnTip env db weight = some r ∧ r.toNat ≤ (emptyReward env db).toNat := by
  obtain ⟨r, hr⟩ := hme.rewardOnTip_some hs hwe
  exact ⟨r, hr, reward_anti hme hs (Nat.zero_le _) (emptyReward_eq hme) hr⟩

end

theorem TemplateFits.settled (h : TemplateFits env args db p) (hme : MediansOk env db)
    (hk : ∀ n, (args.keys.outKey n).isSome = true) (hn : args.exNonce.length ≤ 127)
    (ho : FilledOk p (maxTotalWeight (currentBlockCumulWeightMedian env db) (currentVersion env.cfg db))
      p.sorted f) : ∃ r first tx n, Settled env args db f r first tx n ∧
      f.totalWeight.toNat + maxCoinbaseWeight (currentVersion env.cfg db)
        (args.extraLength env.cfg db.height db.topBlockHash) ≤ 2 * (currentBlockCumulWeightMedian env db).toNat ∧
      (2 ≤ currentVersion env.cfg db → currentVersion env.cfg db < 4 → baseRewardClampThreshold.toNat ≤ r.toNat) := by
  have hsma := hme.current_small
  have hfee := ho.fee_le
  have hwe := ho.weight_le
  have hfe := h.fees
  have hp : (emptyReward env db).toNat + f.fee.toNat <
      if 4 ≤ currentVersion env.cfg db then 2 ^ 64 else 10 ^ 19 := by
    omega
  by_cases hs : AtStart env.cfg db.height
  · have hl := start_room hme hs hn (le_trans hwe (Nat.min_le_left _ _))
    obtain ⟨r, hr⟩ := rewardOnTip_atStart hs
    have hem := emptyReward_eq hme
    rw [hr] at hem
    cases hem
    obtain ⟨tx, hse⟩ := settled_of_constant hk (by omega) (fun _ _ => hr _) hp
    exact ⟨_, tx, tx, 0, hse, hl, h.cut⟩
  · have ht : f.totalWeight.toNat + maxCoinbaseWeight (currentVersion env.cfg db)
        (args.extraLength env.cfg db.height db.topBlockHash) ≤ roomTaken env args db p :=
      Nat.add_le_add_right hwe _
    rcases h.room with ha | hfre | ⟨hf, hl, hln⟩
    · exact (hs ha).elim
    · -- nothing is over the median
      obtain ⟨tx, hse⟩ := settled_of_constant hk (by omega)
        (fun _ hle => reward_free hme hs (by omega)) hp
      exact ⟨_, tx, tx, 0, hse, by omega, h.cut⟩
    · rw [if_pos hf] at hp
      have hb := lt_of_le_of_lt (le_trans ht hl) (show _ < 2 ^ 63 by omega)
      obtain ⟨r, first, tx, n, hse⟩ := settled_of_single hk hf hb
        (fun weight hle => by
          obtain ⟨r, hr, hbound⟩ := @reward_penalized env db weight hme hs (by omega)
          exact ⟨r, hr, by omega⟩)
        (fun _ _ _ _ hle hr hr' => reward_anti hme hs hle hr hr') hln
      refine ⟨r, first, tx, n, hse, by omega, ?_⟩
      intro _ hlt
      exact (UInt8.not_le.mpr hlt hf).elim

theorem coinbaseTries_builds {build : UInt64 → Option SpinnerTx} {txsWeight c : UInt64} {tries : Nat}
    (h : coinbaseTries build txsWeight (tries + 1) c = some tx) : ∃ tx', build c = some tx' := by
  unfold coinbaseTries at h
  split at h
  · cases h
  · rename_i tx' ht'
    exact ⟨tx', ht'⟩

theorem template_within_limit (hc : st.db.entries ≠ []) (hme : MediansOk env st.db)
    (hs : ¬ AtStart env.cfg st.db.height) (hf : fillOnTip env fill st.db p = some f)
    (hi : f.totalWeight.toNat + maxCoinbaseWeight (currentVersion env.cfg st.db)
      (args.extraLength env.cfg st.db.height st.db.topBlockHash) < 2 ^ 64)
    (h : createBlockTemplate env fill args now txid id st p = some t) :
    f.totalWeight.toNat + args.extraLength env.cfg st.db.height st.db.topBlockHash ≤
      2 * (currentBlockCumulWeightMedian env st.db).toNat := by
  obtain ⟨f', first, tx, hf', hfr, ht, _, _⟩ := createBlockTemplate_eq_some hme hc h
  rw [hf] at hf'
  cases hf'
  obtain ⟨_, _, ho⟩ := coinbaseOnTip_eq_some hfr
  obtain ⟨hx, hb⟩ := ho.tip_size
  have hl := first.blob_length
  have hu := @cumulative_toNat f.totalWeight first (by omega)
  obtain ⟨tx', ht'⟩ := coinbaseTries_builds ht
  obtain ⟨r, hr, _⟩ := coinbaseOnTip_eq_some ht'
  have hle := ((hme.rewardOnTip_eq hs).mp hr).1
  omega

theorem writeSpinnerData_length (d : SpinnerData) : 96 * d.nfo.proof.pairs.length ≤ (writeSpinnerData d).length ∧
      (writeSpinnerData d).length ≤ 96 * d.nfo.proof.pairs.length + 282 := by
  have hp : ∀ pairs : List ProofPair, (pairs.flatMap writeProofPair).length = 96 * pairs.length := by
    intro pairs
    induction pairs with
    | nil => rfl
    | cons pair rest ih =>
      simp only [flatMap_cons, length_append, length_cons, ih, writeProofPair, bytesOf_length]
      omega
  have hc := writeVarint_length_le (UInt64.ofNat d.nfo.proof.pairs.length)
  have hpe := writeVarint_length_le d.nfo.prevuosHeight
  have ha := writeVarint_length_le d.approximatelyCount
  have hl := writeVarint_length_le d.locked
  have hd := writeVarint_length_le d.mediumLocked
  have hs := writeVarint_length_le d.spin
  have hn := writeVarint_length_le d.mediumSpin
  have hi := writeVarint_length_le d.interval
  have hmm := writeVarint_length_le d.mediumInterval
  simp only [writeSpinnerData, writeSpinnerInfo, writeSpinnerTxProof, hashBytes, length_append, hp,
    bytesOf_length]
  omega

theorem extraLength_bounds {cfg : Config} {height : UInt64} {prevId : Hash}
    (hh : cfg.startAmountBlocks < height) (hp : args.spinData.nfo.proof.txid ≠ nullHash)
    (hn : args.exNonce.length ≤ 127) : 96 * args.spinData.nfo.proof.pairs.length ≤ args.extraLength cfg height prevId ∧
      args.extraLength cfg height prevId ≤ 96 * args.spinData.nfo.proof.pairs.length + 520 := by
  obtain ⟨hi, ha⟩ := writeSpinnerData_length args.spinData
  have hs := writeVarint_length_le (UInt64.ofNat (writeSpinnerData args.spinData).length)
  unfold CoinbaseArgs.extraLength CoinbaseArgs.extra
  rw [if_pos (show cfg.startAmountBlocks < height ∧ args.spinData.nfo.proof.txid ≠ nullHash from ⟨hh, hp⟩)]
  split
  · simp only [nil_append, flatMap_cons, flatMap_nil, ExtraPart.write, length_append,
      length_cons, length_nil, bytesOf_length]
    omega
  · simp only [flatMap_append, flatMap_cons, flatMap_nil, ExtraPart.write,
      length_append, length_cons, length_nil, bytesOf_length]
    omega

end

/-! ## Templates of the small network -/

namespace Sample

def keyedBlock (n height : Nat) : Block :=
  let b := startBlock config height
  if height = 1 then
    { b with spinnerTx :=
        { b.spinnerTx with
          extra := [.pubKey 9, .additionalPubKeys (List.replicate n 9)]
          weight := UInt64.ofNat (100 + 33 * n) } }
  else b

def keyedArrivals (n : Nat) : List Arrival := (List.range 9).map fun h => arrival (keyedBlock n h)

def aliceWith (n : Nat) : SpinnerInfo :=
  { alice with proof := { txid := 5001, pairs := List.replicate (n + 1) { key := 1, sig := 1 } } }

def pooledPayment (id : Hash) (k : PublicKey) (weight : UInt64) : Transaction where
  hash := id
  version := 1
  unlockTime := 0
  vin := [.toKey 5000000 [1] k]
  vout := [{ amount := 4000000, target := .toKey 9 }]
  extra := [.pubKey 9]
  rctSignatures := .null
  weight := weight
  fee := 1000000
  pruned := false

def pooledPayments (weight : UInt64) : List PoolCall :=
  [{ env := lenientEnv 0, db := .none, op := .addTx 1 (pooledPayment 1 11 weight) .fluff .none },
    { env := lenientEnv 1, db := .none, op := .addTx 1 (pooledPayment 2 12 weight) .fluff .none }]

def readyEnv : FillEnv := { dandelionpp := true, spinningStemTxes := false, readyToGo := fun _ => true }

def firstArgs : CoinbaseArgs where
  keys := { txPub := 9, outKey := fun n => some (BitVec.ofNat 256 n) }
  sign _ := 0
  spinData := firstData
  exNonce := [1, 2, 3]

structure FirstVersion (db : Db) : Prop where
  stored : db.entries.isEmpty = false
  above : config.startAmountBlocks < db.height
  version : currentVersion config db = 1
  median : zonedMedian (median (lastWeights db 100)) 1 = 20000

instance (db : Db) : Decidable (FirstVersion db) :=
  decidable_of_iff (db.entries.isEmpty = false ∧ config.startAmountBlocks < db.height ∧
      currentVersion config db = 1 ∧ zonedMedian (median (lastWeights db 100)) 1 = 20000)
    ⟨fun ⟨h₁, h₂, h₃, h₄⟩ => ⟨h₁, h₂, h₃, h₄⟩, fun ⟨h₁, h₂, h₃, h₄⟩ => ⟨h₁, h₂, h₃, h₄⟩⟩

variable {db : Db}

section
variable (h : FirstVersion db)
include h

theorem FirstVersion.chain : db.entries ≠ [] := by
  intro hn
  have hs := h.stored
  rw [hn] at hs
  cases hs

theorem FirstVersion.medians : MediansOk (Sample.env config) db := by
  have hv : currentVersion (Sample.env config).cfg db = 1 := h.version
  constructor
  · intro ht
    rw [hv] at ht
    exact absurd ht (by decide)
  · rw [hv, h.median]
    decide

theorem FirstVersion.median_eq : currentBlockCumulWeightMedian (Sample.env config) db = 20000 := by
  rw [currentBlockCumulWeightMedian_eq]
  exact h.median

theorem FirstVersion.not_start : ¬ AtStart (Sample.env config).cfg db.height :=
  fun hs => UInt64.not_lt.mpr hs.2 h.above

end

end Sample

open Sample

theorem filled_block_consistent_of_two : ∃ p f, run TxPool.call .empty (pooledPayments 3000) = some p ∧
    readyEnv.fillBlockTemplate config p 9 20000 0 1 = some f ∧ f.txHashes.length = 2 ∧ Chosen readyEnv p f := by
  have hv : ((run TxPool.call .empty (pooledPayments 3000)).bind fun p =>
      (readyEnv.fillBlockTemplate config p 9 20000 0 1).map (·.txHashes.length)) = some 2 := by
    decide +kernel
  obtain ⟨p, hp, ho⟩ := Option.bind_eq_some_iff.mp hv
  obtain ⟨f, hf, hl⟩ := Option.map_eq_some_iff.mp ho
  exact ⟨p, f, hp, hf, hl, (filled_block_consistent hf).1⟩

end Gyro
