import Gyro.Amounts
import Gyro.BlockReward
import Gyro.Lib.WordSum

/-!
# Building the spinner transaction

`construct_spinner_tx` and the size of what it builds, which is its weight.
-/

namespace Gyro

open WordSum List

inductive ExtraPart where
  | pubKey (key : PublicKey)
  | nonce (data : Blob)
  | spinData (data : Blob)
  | spinSig (sig : Signature)

namespace ExtraPart

def write : ExtraPart → Blob
  | pubKey key => 0x01 :: bytesOf 32 key
  | nonce data => 0x02 :: UInt8.ofNat data.length :: data
  | spinData data => 0x07 :: writeVarint (UInt64.ofNat data.length) ++ data
  | spinSig sig => 0x08 :: bytesOf 64 sig

def field : ExtraPart → TxExtraField
  | pubKey key => .pubKey key
  | nonce _ => .other
  | spinData data => .spinData data
  | spinSig sig => .spinSig sig

def rank : ExtraPart → Nat
  | pubKey _ => 0
  | nonce _ => 1
  | spinData _ => 2
  | spinSig _ => 3

end ExtraPart

/-- The fields are picked kind by kind. A nonce of at most 127 bytes reads back. -/
def sortTxExtra (extra : List ExtraPart) : List ExtraPart :=
  (List.range 4).flatMap fun n => extra.filter (·.rank = n)

/-- A coinbase before it is in a block. `padding` counts the zero bytes at the
end of the extra. -/
structure SpinnerTx where
  version : UInt64
  unlockTime : UInt64
  height : UInt64
  outs : List (UInt64 × PublicKey)
  extra : List ExtraPart
  padding : Nat

namespace SpinnerTx

def extraBytes (tx : SpinnerTx) : Blob := tx.extra.flatMap ExtraPart.write ++ List.replicate tx.padding 0

def writeOut (o : UInt64 × PublicKey) : Blob := writeVarint o.1 ++ 0x02 :: bytesOf 32 o.2

/-- A coinbase has no signatures; from version 2 on a byte says so. -/
def blob (tx : SpinnerTx) : Blob :=
  writeVarint tx.version ++ writeVarint tx.unlockTime ++ writeVarint 1 ++ 0xff :: writeVarint tx.height ++
    writeVarint (UInt64.ofNat tx.outs.length) ++ tx.outs.flatMap writeOut ++
    writeVarint (UInt64.ofNat tx.extraBytes.length) ++ tx.extraBytes ++
    if 2 ≤ tx.version then [0x00] else []

def weight (tx : SpinnerTx) : UInt64 := UInt64.ofNat tx.blob.length

def pad (tx : SpinnerTx) (n : Nat) : SpinnerTx := { tx with padding := tx.padding + n }

def toTransaction (tx : SpinnerTx) (txid : Hash) : Transaction where
  hash := txid
  version := tx.version
  unlockTime := tx.unlockTime
  vin := [.gen tx.height]
  vout := tx.outs.map fun o => { amount := o.1, target := .toKey o.2 }
  extra := tx.extra.map ExtraPart.field ++ if tx.padding = 0 then [] else [.other]
  rctSignatures := RctSig.null
  weight := tx.weight
  fee := 0
  pruned := false

end SpinnerTx

def defaultDustThreshold : Nat := 2000000000
def baseRewardClampThreshold : UInt64 := 100000000

def clampReward (version : UInt8) (blockReward : UInt64) : UInt64 :=
  if 2 ≤ version ∧ version < 4 then blockReward - blockReward % baseRewardClampThreshold
  else blockReward

/-- The first two amounts become one until there are at most `maxOuts`. -/
def mergeOuts (maxOuts : Nat) : UInt64 → List UInt64 → List UInt64
  | a, [] => [a]
  | a, b :: rest =>
    if maxOuts < rest.length + 2 then mergeOuts maxOuts (b + a) rest else a :: b :: rest

def outAmounts (height : UInt64) (maxOuts : Nat) (version : UInt8) (blockReward : UInt64) :
    Option (List UInt64) :=
  let threshold := if 2 ≤ version then 0 else defaultDustThreshold
  let amounts := (decomposeAmountIntoDigits blockReward.toNat threshold).map UInt64.ofNat
  if height = 0 ∨ 4 ≤ version then
    match amounts with
    | [] => some []
    | a :: rest => some (mergeOuts maxOuts a rest)
  else if maxOuts < amounts.length then none
  else some amounts

/-- The transaction's public key, and the one-time key of each output that can be derived. -/
structure CoinbaseKeys where
  txPub : PublicKey
  outKey : Nat → Option PublicKey

def deriveOuts (keys : CoinbaseKeys) : Nat → List UInt64 → Option (List (UInt64 × PublicKey))
  | _, [] => some []
  | n, amount :: rest =>
    match keys.outKey n, deriveOuts keys (n + 1) rest with
    | some key, some outs => some ((amount, key) :: outs)
    | _, _ => none

def constructSpinnerTx (cfg : Config) (keys : CoinbaseKeys)
    (height medianWeight alreadyGeneratedCoins currentBlockWeight fee : UInt64)
    (extra : List ExtraPart) (maxOuts : Nat) (version : UInt8) : Option SpinnerTx :=
  match getBlockReward cfg height medianWeight currentBlockWeight alreadyGeneratedCoins version with
  | none => none
  | some reward =>
    let blockReward := clampReward version (reward + fee)
    match outAmounts height maxOuts version blockReward with
    | none => none
    | some amounts =>
      match deriveOuts keys 0 amounts with
      | none => none
      | some outs =>
        if amounts.foldl (· + ·) 0 ≠ blockReward then none
        else some {
          version := if 4 ≤ version then 2 else 1
          unlockTime := height + spinnedMoneyUnlockWindow
          height
          outs
          extra := sortTxExtra (extra ++ [.pubKey keys.txPub])
          padding := 0 }

section
variable {fuel : Nat} {i j : UInt64}

theorem writeVarintFrom_length_le : (writeVarintFrom fuel i).length ≤ fuel := by
  induction fuel generalizing i with
  | zero => simp [writeVarintFrom]
  | succ fuel ih =>
    unfold writeVarintFrom
    split
    · exact Nat.succ_le_succ ih
    · simp

theorem writeVarintFrom_length_mono (h : i ≤ j) :
    (writeVarintFrom fuel i).length ≤ (writeVarintFrom fuel j).length := by
  induction fuel generalizing i j with
  | zero => simp [writeVarintFrom]
  | succ fuel ih =>
    unfold writeVarintFrom
    by_cases hi : 0x80 ≤ i
    · have hs : i >>> 7 ≤ j >>> 7 := by
        rw [UInt64.le_iff_toNat_le] at h ⊢
        simp only [UInt64.toNat_shiftRight, Nat.shiftRight_eq_div_pow]
        exact Nat.div_le_div_right h
      rw [if_pos hi, if_pos (UInt64.le_trans hi h)]
      exact Nat.succ_le_succ (ih hs)
    · rw [if_neg hi]
      split
      · simp
      · simp

theorem writeVarint_length_le (i : UInt64) : (writeVarint i).length ≤ 10 := writeVarintFrom_length_le

theorem writeVarint_length_mono (h : i ≤ j) : (writeVarint i).length ≤ (writeVarint j).length :=
  writeVarintFrom_length_mono h

theorem writeVarint_length_small (h : i < 0x80) : (writeVarint i).length = 1 := by
  unfold writeVarint writeVarintFrom
  rw [if_neg (UInt64.not_le.mpr h)]
  rfl

end

def lengthSize (n : Nat) : Nat := (writeVarint (UInt64.ofNat n)).length

namespace SpinnerTx

def headSize (tx : SpinnerTx) : Nat :=
  (writeVarint tx.version).length + (writeVarint tx.unlockTime).length + 2 +
    (writeVarint tx.height).length + lengthSize tx.outs.length + if 2 ≤ tx.version then 1 else 0

def outsSize (tx : SpinnerTx) : Nat := (tx.outs.map fun o => (writeVarint o.1).length + 33).sum

theorem blob_length (tx : SpinnerTx) : tx.blob.length =
    tx.headSize + tx.outsSize + lengthSize tx.extraBytes.length + tx.extraBytes.length := by
  have ho : ∀ o, (writeOut o).length = (writeVarint o.1).length + 33 := by
    intro o
    simp [writeOut, bytesOf_length]
  have hn : (writeVarint 1).length = 1 := by decide
  have hf : (if 2 ≤ tx.version then [(0x00 : UInt8)] else []).length = if 2 ≤ tx.version then 1 else 0 := by
    split <;> rfl
  simp only [blob, headSize, outsSize, lengthSize, length_append, length_cons, length_flatMap, ho, hn, hf]
  omega

@[simp] theorem pad_zero (tx : SpinnerTx) : tx.pad 0 = tx := rfl

theorem pad_extraBytes (tx : SpinnerTx) (n : Nat) : (tx.pad n).extraBytes.length = tx.extraBytes.length + n := by
  simp [extraBytes, pad]
  omega

theorem pad_blob_length (tx : SpinnerTx) (n : Nat) : (tx.pad n).blob.length =
    tx.headSize + tx.outsSize + lengthSize (tx.extraBytes.length + n) + (tx.extraBytes.length + n) := by
  rw [blob_length, pad_extraBytes]
  rfl

end SpinnerTx

section
variable {a b : UInt64} {rest amounts : List UInt64} {n maxOuts : Nat} {height : UInt64} {version : UInt8}

theorem total_map_ofNat {xs : List Nat} (h : xs.sum < 2 ^ 64) : total (xs.map UInt64.ofNat) = xs.sum := by
  induction xs with
  | nil => rfl
  | cons x xs ih =>
    rw [sum_cons] at h
    rw [map_cons, total_cons, sum_cons, ih (by omega), UInt64.toNat_ofNat_of_lt' (by change x < 2 ^ 64; omega)]

theorem mergeOuts_total (h : a.toNat + total rest < 2 ^ 64) :
    total (mergeOuts maxOuts a rest) = a.toNat + total rest := by
  induction rest generalizing a with
  | nil => rfl
  | cons b rest ih =>
    rw [total_cons] at h ⊢
    unfold mergeOuts
    split
    · have hs : (b + a).toNat = b.toNat + a.toNat := add_toNat (by omega)
      rw [ih (by omega)]
      omega
    · simp

theorem mergeOuts_length (h : 1 ≤ maxOuts) : (mergeOuts maxOuts a rest).length ≤ maxOuts := by
  induction rest generalizing a with
  | nil => exact h
  | cons b rest ih =>
    unfold mergeOuts
    split
    · exact ih
    · simp only [length_cons]
      omega

theorem decompose_total (threshold : Nat) :
    total ((decomposeAmountIntoDigits b.toNat threshold).map UInt64.ofNat) = b.toNat := by
  have hl := b.toNat_lt
  have hs := decomposeAmountIntoDigits_sum (show b.toNat < 10 ^ 20 by omega) threshold
  rw [total_map_ofNat (by omega), hs]

theorem outAmounts_total (h : outAmounts height maxOuts version b = some amounts) : total amounts = b.toNat := by
  have hl := b.toNat_lt
  unfold outAmounts at h
  dsimp only at h
  generalize (if 2 ≤ version then 0 else defaultDustThreshold) = threshold at h
  have ht := @decompose_total b threshold
  split at h
  · split at h
    · rename_i hn
      cases h
      rw [← ht, hn]
    · rename_i a rest hc
      cases h
      rw [hc, total_cons] at ht
      rw [mergeOuts_total (by omega), ht]
  · split at h
    · cases h
    · cases h
      exact ht

theorem outAmounts_length (ha : 1 ≤ maxOuts) (h : outAmounts height maxOuts version b = some amounts) :
    amounts.length ≤ maxOuts := by
  unfold outAmounts at h
  dsimp only at h
  generalize (if 2 ≤ version then 0 else defaultDustThreshold) = threshold at h
  split at h
  · split at h
    · cases h
      exact Nat.zero_le _
    · cases h
      exact mergeOuts_length ha
  · split at h
    · cases h
    · cases h
      omega

theorem clampReward_toNat : (clampReward version b).toNat =
    if 2 ≤ version ∧ version < 4 then b.toNat - b.toNat % baseRewardClampThreshold.toNat else b.toNat := by
  unfold clampReward
  split
  · have hle : b % baseRewardClampThreshold ≤ b := by
      rw [UInt64.le_iff_toNat_le]
      exact Nat.mod_le _ _
    rw [UInt64.toNat_sub_of_le _ _ hle, UInt64.toNat_mod]
  · rfl

theorem outAmounts_merged (h : height = 0 ∨ 4 ≤ version) :
    ∃ amounts, outAmounts height maxOuts version b = some amounts := by
  unfold outAmounts
  rw [if_pos h]
  split
  · exact ⟨_, rfl⟩
  · exact ⟨_, rfl⟩

theorem outAmounts_single (hv : 4 ≤ version) : outAmounts height 1 version b = some (if b = 0 then [] else [b]) := by
  obtain ⟨amounts, hs⟩ := @outAmounts_merged b 1 height version (.inr hv)
  have ht := outAmounts_total hs
  have hl := outAmounts_length (le_refl 1) hs
  by_cases hzero : b = 0
  · subst hzero
    have hn : ∀ threshold, decomposeAmountIntoDigits 0 threshold = [] :=
      fun threshold => decomposeFrom_zero
    simp [outAmounts, hv, hn]
  · rw [hs, if_neg hzero]
    rw [← UInt64.toNat_inj] at hzero
    match amounts with
    | [] => exact (hzero ht.symm).elim
    | [x] =>
      rw [total_cons, total_nil] at ht
      rw [UInt64.toNat_inj.mp ht]
    | _ :: _ :: _ =>
      simp only [length_cons] at hl
      omega

theorem outAmounts_some (hl : b.toNat < 10 ^ 19) (hc : 2 ≤ version → b.toNat % 10 ^ 8 = 0) :
    ∃ amounts, outAmounts height 11 version b = some amounts := by
  by_cases hme : height = 0 ∨ 4 ≤ version
  · exact outAmounts_merged hme
  · unfold outAmounts
    rw [if_neg hme, if_neg]
    · exact ⟨_, rfl⟩
    · rw [length_map]
      by_cases hv : 2 ≤ version
      · have hn := decomposeAmountIntoDigits_length_cut hl (hc hv)
        rw [if_pos hv]
        omega
      · have hn := decomposeAmountIntoDigits_length_dust hl
        rw [if_neg hv]
        exact Nat.not_lt.mpr hn

end

section
variable {keys : CoinbaseKeys} {n : Nat} {amounts : List UInt64} {outs : List (UInt64 × PublicKey)}

theorem deriveOuts_amounts (h : deriveOuts keys n amounts = some outs) : outs.map Prod.fst = amounts := by
  induction amounts generalizing n outs with
  | nil =>
    cases h
    rfl
  | cons amount rest ih =>
    unfold deriveOuts at h
    split at h
    · rename_i key more _ ho
      cases h
      rw [map_cons, ih ho]
    · cases h

theorem deriveOuts_some (hk : ∀ n, (keys.outKey n).isSome = true) : ∃ outs, deriveOuts keys n amounts = some outs := by
  induction amounts generalizing n with
  | nil => exact ⟨[], rfl⟩
  | cons amount rest ih =>
    obtain ⟨key, hy⟩ := Option.isSome_iff_exists.mp (hk n)
    obtain ⟨outs, ho⟩ := @ih (n + 1)
    refine ⟨(amount, key) :: outs, ?_⟩
    simp [deriveOuts, hy, ho]

end

/-! ## The specification of `construct_spinner_tx` -/

structure Constructed (keys : CoinbaseKeys) (height fee r : UInt64) (extra : List ExtraPart)
    (maxOuts : Nat) (version : UInt8) (tx : SpinnerTx) : Prop where
  amounts : outAmounts height maxOuts version (clampReward version (r + fee)) =
    some (tx.outs.map Prod.fst)
  version_eq : tx.version = if 4 ≤ version then 2 else 1
  unlockTime : tx.unlockTime = height + spinnedMoneyUnlockWindow
  height_eq : tx.height = height
  extra_eq : tx.extra = sortTxExtra (extra ++ [.pubKey keys.txPub])
  padding : tx.padding = 0

section
variable {cfg : Config} {keys : CoinbaseKeys} {height median coins weight fee r : UInt64}
  {extra : List ExtraPart} {maxOuts : Nat} {version : UInt8} {tx : SpinnerTx}

theorem constructSpinnerTx_eq_some
    (h : constructSpinnerTx cfg keys height median coins weight fee extra maxOuts version = some tx) :
    ∃ r, getBlockReward cfg height median weight coins version = some r ∧
      Constructed keys height fee r extra maxOuts version tx := by
  unfold constructSpinnerTx at h
  split at h
  · cases h
  · rename_i r hr
    dsimp only at h
    split at h
    · cases h
    · rename_i amounts ha
      split at h
      · cases h
      · rename_i outs ho
        split at h
        · cases h
        · cases h
          exact ⟨r, hr, by rw [ha, deriveOuts_amounts ho], rfl, rfl, rfl, rfl, rfl⟩

theorem constructSpinnerTx_some {amounts : List UInt64} (hk : ∀ n, (keys.outKey n).isSome = true)
    (hr : getBlockReward cfg height median weight coins version = some r)
    (ha : outAmounts height maxOuts version (clampReward version (r + fee)) = some amounts) :
    ∃ tx, constructSpinnerTx cfg keys height median coins weight fee extra maxOuts version = some tx := by
  obtain ⟨outs, ho⟩ := @deriveOuts_some keys 0 amounts hk
  have hl := (clampReward version (r + fee)).toNat_lt
  have hp : amounts.foldl (· + ·) 0 = clampReward version (r + fee) := by
    rw [← UInt64.toNat_inj, sum_toNat (by rw [outAmounts_total ha]; exact hl), outAmounts_total ha]
  unfold constructSpinnerTx
  simp only [hr, ha, ho, hp, ne_eq, not_true_eq_false, if_false]
  exact ⟨_, rfl⟩

end

/-! ## The payment -/

def exactPayment (version : UInt8) (sum : Nat) : Nat :=
  if 2 ≤ version ∧ version < 4 then sum - sum % baseRewardClampThreshold.toNat else sum

/-- The handlers get the digits, and the outputs pay reward and fees as long as the two fit into a word. -/
theorem coinbase_splitting : (∀ amount threshold : Nat, amount < 2 ^ 64 → ∃ t chunks ds,
      handlerCalls amount threshold = dustCalls t false ++ chunks ∧ t ≤ threshold ∧ ChunksOf 0 20 chunks ds ∧
        ((handlerCalls amount threshold).map DigitCall.value).sum = amount) ∧
    ∀ cfg keys height median coins weight fee extra maxOuts version r, 1 ≤ maxOuts →
      getBlockReward cfg height median weight coins version = some r →
      (∀ tx, constructSpinnerTx cfg keys height median coins weight fee extra maxOuts version = some tx →
        tx.outs.length ≤ maxOuts ∧ (r.toNat + fee.toNat < 2 ^ 64 →
          total (tx.outs.map Prod.fst) = exactPayment version (r.toNat + fee.toNat))) ∧
      (4 ≤ version → (∀ n, (keys.outKey n).isSome = true) → ∃ tx,
        constructSpinnerTx cfg keys height median coins weight fee extra maxOuts version = some tx) := by
  constructor
  · intro amount threshold hl
    exact handlerCalls_spec (by omega) threshold
  · intro cfg keys height median coins weight fee extra maxOuts version r ha hr
    constructor
    · intro tx ht
      obtain ⟨r', hr', h⟩ := constructSpinnerTx_eq_some ht
      cases hr.symm.trans hr'
      refine ⟨by simpa using outAmounts_length ha h.amounts, fun hf => ?_⟩
      rw [outAmounts_total h.amounts, clampReward_toNat, add_toNat hf, exactPayment]
    · intro hv hk
      obtain ⟨amounts, ham⟩ := outAmounts_merged (.inr hv)
      exact constructSpinnerTx_some hk hr ham

theorem coinbase_splitting_default : ∃ tx,
    constructSpinnerTx Config.default ⟨7, fun _ => some 9⟩ 200 60000 0 0 5 [] 3 4 = some tx ∧
      tx.outs.length ≤ 3 ∧ total (tx.outs.map Prod.fst) = (baseReward Config.default 0).toNat + 5 := by
  obtain ⟨hp, hs⟩ := coinbase_splitting.2 Config.default ⟨7, fun _ => some 9⟩ 200 60000 0 0 5 [] 3 4
    (baseReward Config.default 0) (by decide) (by decide +kernel)
  obtain ⟨tx, ht⟩ := hs (by decide) fun _ => rfl
  exact ⟨tx, ht, (hp tx ht).1, (hp tx ht).2 (by decide +kernel)⟩

/-- Fees of `2^64 - 1` take one unit from the reward. -/
theorem coinbase_sum_wraps :
    (constructSpinnerTx Config.default ⟨7, fun _ => some 9⟩ 200 60000 0 0 (2 ^ 64 - 1) [] 3 4).map
      (fun tx => total (tx.outs.map Prod.fst) + 1) = some (baseReward Config.default 0).toNat := by
  decide +kernel

/-! ## The size of the coinbase -/

theorem sortTxExtra_length (extra : List ExtraPart) :
    ((sortTxExtra extra).flatMap ExtraPart.write).length = (extra.flatMap ExtraPart.write).length := by
  have hr : List.range 4 = [0, 1, 2, 3] := rfl
  unfold sortTxExtra
  rw [hr]
  induction extra with
  | nil => rfl
  | cons part rest ih =>
    cases part with
    | pubKey key =>
      simp [ExtraPart.rank] at ih ⊢
      omega
    | nonce data =>
      simp [ExtraPart.rank] at ih ⊢
      omega
    | spinData data =>
      simp [ExtraPart.rank] at ih ⊢
      omega
    | spinSig sig =>
      simp [ExtraPart.rank] at ih ⊢
      omega

def outSize (amount : UInt64) : Nat := if amount = 0 then 0 else (writeVarint amount).length + 33

theorem outSize_le (amount : UInt64) : outSize amount ≤ 43 := by
  have hle := writeVarint_length_le amount
  unfold outSize
  split <;> omega

theorem outSize_mono {a b : UInt64} (h : a ≤ b) : outSize a ≤ outSize b := by
  have hn := writeVarint_length_mono h
  unfold outSize
  by_cases hb : b = 0
  · have ha : a = 0 := by
      rw [hb] at h
      exact UInt64.le_antisymm h (UInt64.le_iff_toNat_le.mpr (Nat.zero_le _))
    simp [ha]
  · split <;> omega

theorem lengthSize_small {n : Nat} (h : n < 128) : lengthSize n = 1 := by
  apply writeVarint_length_small
  rw [UInt64.lt_iff_toNat_lt, UInt64.toNat_ofNat_of_lt' (by change n < 2 ^ 64; omega)]
  exact h

theorem lengthSize_mono {n k : Nat} (h : n ≤ k) (hk : k < 2 ^ 64) : lengthSize n ≤ lengthSize k := by
  apply writeVarint_length_mono
  rw [UInt64.le_iff_toNat_le, UInt64.toNat_ofNat_of_lt' (by change n < 2 ^ 64; omega), UInt64.toNat_ofNat_of_lt' hk]
  exact h

variable {keys : CoinbaseKeys} {height fee r : UInt64} {extra : List ExtraPart} {maxOuts : Nat}
  {version : UInt8} {tx : SpinnerTx}

section
variable (h : Constructed keys height fee r extra maxOuts version tx)
include h

theorem Constructed.extraBytes_length : tx.extraBytes.length = (extra.flatMap ExtraPart.write).length + 33 := by
  unfold SpinnerTx.extraBytes
  rw [h.extra_eq, h.padding, replicate_zero, append_nil, sortTxExtra_length]
  simp [ExtraPart.write, bytesOf_length]

theorem Constructed.outs_length (ha : 1 ≤ maxOuts) : tx.outs.length ≤ maxOuts := by
  have hl := outAmounts_length ha h.amounts
  rwa [length_map] at hl

theorem Constructed.version_size : (writeVarint tx.version).length = 1 := by
  rw [h.version_eq]
  split <;> decide

theorem Constructed.size_le (hi : 1 ≤ maxOuts) (ha : maxOuts ≤ 11) :
    tx.blob.length ≤ tx.extraBytes.length + 43 * maxOuts + 35 := by
  have hc := h.outs_length hi
  have hhe : tx.headSize ≤ 25 := by
    have hu := writeVarint_length_le tx.unlockTime
    have hh := writeVarint_length_le tx.height
    unfold SpinnerTx.headSize
    rw [h.version_size, lengthSize_small (by omega)]
    split <;> omega
  have ho : tx.outsSize ≤ 43 * tx.outs.length := by
    unfold SpinnerTx.outsSize
    have hs := sum_le_card_nsmul (tx.outs.map fun o => (writeVarint o.1).length + 33) 43 (by
      intro x hx
      obtain ⟨o, _, rfl⟩ := mem_map.mp hx
      have hle := writeVarint_length_le o.1
      omega)
    simpa [Nat.mul_comm] using hs
  have hl : lengthSize tx.extraBytes.length ≤ 10 := writeVarint_length_le _
  rw [SpinnerTx.blob_length]
  omega

end

theorem Constructed.size_single (h : Constructed keys height fee r extra 1 version tx)
    (hv : 4 ≤ version) : tx.headSize + tx.outsSize =
      (writeVarint (height + spinnedMoneyUnlockWindow)).length + (writeVarint height).length + 5 +
        outSize (r + fee) := by
  have hl : clampReward version (r + fee) = r + fee := by
    unfold clampReward
    rw [if_neg]
    rintro ⟨_, ht⟩
    exact UInt8.not_le.mpr ht hv
  have ha := h.amounts
  rw [hl, outAmounts_single hv] at ha
  have ho := Option.some.inj ha
  have hs : tx.outsSize = outSize (r + fee) := by
    have hp : tx.outs.map (fun o => (writeVarint o.1).length + 33) =
        (tx.outs.map Prod.fst).map fun a => (writeVarint a).length + 33 := by
      rw [map_map]
      rfl
    unfold SpinnerTx.outsSize outSize
    rw [hp, ← ho]
    split <;> rfl
  have hc := h.outs_length (le_refl 1)
  have htw : tx.version = 2 := by
    rw [h.version_eq, if_pos hv]
  have hr := h.version_size
  unfold SpinnerTx.headSize
  rw [hr, h.unlockTime, h.height_eq, lengthSize_small (by omega), htw, if_pos (by decide)]
  omega

end Gyro
