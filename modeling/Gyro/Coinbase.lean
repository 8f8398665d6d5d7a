import Gyro.SpinnerData
import Mathlib.Data.List.Sort

/-!
# Timestamps, reward and the coinbase

`check_block_timestamp`, `get_block_reward` and the two checks of the spinner
transaction.
-/

namespace Gyro

def insertSorted (x : UInt64) : List UInt64 → List UInt64
  | [] => [x]
  | y :: ys => if x ≤ y then x :: y :: ys else y :: insertSorted x ys

def sorted (xs : List UInt64) : List UInt64 := xs.foldr insertSorted []

def median : List UInt64 → UInt64
  | [] => 0
  | [x] => x
  | xs =>
    let v := sorted xs
    let n := xs.length / 2
    if xs.length % 2 = 1 then v.getD n 0 else (v.getD (n - 1) 0 + v.getD n 0) / 2

theorem insertSorted_eq (x : UInt64) (xs : List UInt64) : insertSorted x xs = xs.orderedInsert (· ≤ ·) x := by
  induction xs with
  | nil => rfl
  | cons y ys ih => simp only [insertSorted, List.orderedInsert_cons, ih]

theorem sorted_eq (xs : List UInt64) : sorted xs = xs.insertionSort (· ≤ ·) := by
  induction xs with
  | nil => rfl
  | cons x xs ih =>
    rw [List.insertionSort_cons, ← ih, ← insertSorted_eq]
    rfl

theorem sorted_perm (xs : List UInt64) : (sorted xs).Perm xs := by
  rw [sorted_eq]
  exact List.perm_insertionSort _ xs

theorem sorted_pairwise (xs : List UInt64) : (sorted xs).Pairwise (· ≤ ·) := by
  rw [sorted_eq]
  exact List.pairwise_insertionSort _ xs

theorem median_eq {xs : List UInt64} (h : xs ≠ []) : median xs =
    if xs.length % 2 = 1 then (sorted xs).getD (xs.length / 2) 0
    else ((sorted xs).getD (xs.length / 2 - 1) 0 + (sorted xs).getD (xs.length / 2) 0) / 2 := by
  match xs with
  | [x] => simp [median, sorted, insertSorted]
  | x :: y :: zs => rfl

def lastTimestamps (db : Db) (count : Nat) : List UInt64 :=
  (db.entries.drop (db.entries.length - count)).map (·.block.timestamp)

/-- At most two hours ahead of the clock and not before the median of the last 60 blocks. -/
def checkBlockTimestamp (db : Db) (now : UInt64) (b : Block) : Bool :=
  if now + blockFutureTimeLimit < b.timestamp then false
  else if db.entries.length < blockchainTimestampCheckWindow then true
  else median (lastTimestamps db blockchainTimestampCheckWindow) ≤ b.timestamp

/-- The last registered fork whose height is reached: votes need no majority here. -/
def forkVersion (forks : List HardForkEntry) (height : UInt64) : UInt8 :=
  match (forks.drop 1).reverse.find? (·.height ≤ height) with
  | some f => f.version
  | none => (forks.head?.map (·.version)).getD 0

def currentVersion (cfg : Config) (db : Db) : UInt8 := forkVersion cfg.hardForks db.height

def checkVersion (cfg : Config) (db : Db) (b : Block) : Bool :=
  b.majorVersion = currentVersion cfg db ∧ currentVersion cfg db ≤ getBlockVote b

def getMinBlockWeight (version : UInt8) : UInt64 :=
  if version < 2 then 20000 else if version < 5 then 60000 else 300000

def baseReward (cfg : Config) (alreadyGeneratedCoins : UInt64) : UInt64 :=
  let base := UInt64.ofNat
    (((moneySupply - alreadyGeneratedCoins).toNat * cfg.emissionSubsidyPerMinute.toNat *
      cfg.durationTarget.toNat * cfg.coin.toNat / moneySupply.toNat) / 60)
  let final := cfg.finalSubsidyPerMinute * cfg.durationTarget / 60
  if base < final then final else base

def getBlockReward (cfg : Config) (height medianWeight weight alreadyGeneratedCoins : UInt64)
    (version : UInt8) : Option UInt64 :=
  if 0 < height ∧ height ≤ cfg.startAmountBlocks then
    if height = cfg.startAmountBlocks then
      some (cfg.startAmount - (cfg.startAmountBlocks - 1) * cfg.startAmount / cfg.startAmountBlocks)
    else some (cfg.startAmount / cfg.startAmountBlocks)
  else
    let reward := baseReward cfg alreadyGeneratedCoins
    let zone := getMinBlockWeight version
    let medianWeight := if medianWeight < zone then zone else medianWeight
    if weight ≤ medianWeight then some reward
    else if 2 * medianWeight < weight then none
    else
      let multiplicand := (2 * medianWeight - weight) * weight
      some (UInt64.ofNat (reward.toNat * multiplicand.toNat / medianWeight.toNat / medianWeight.toNat))

def isValidDecomposedAmount (amount : UInt64) : Bool :=
  (List.range 19).any (fun k => (List.range 9).any fun d => amount.toNat = (d + 1) * 10 ^ k) ||
    amount.toNat = 10 ^ 19

def checkOutsOverflow (amounts : List UInt64) : Bool :=
  (amounts.foldl (fun (acc : Bool × UInt64) amount =>
    (acc.1 && decide (acc.2 ≤ amount + acc.2), acc.2 + amount)) (true, 0)).1

def prevalidateSpinnerTransaction (b : Block) (height : UInt64) (version : UInt8) : Bool :=
  match b.spinnerTx.vin with
  | [.gen h] =>
    (1 < b.spinnerTx.version || version < 12) &&
    (version < 12 || b.spinnerTx.version < 2 || b.spinnerTx.rctTypeNull) &&
    h = height &&
    (b.spinnerTx.unlockTime = height + spinnedMoneyUnlockWindow ||
      b.spinnerTx.unlockTime = spinnedMoneyLockedBlocks) &&
    checkOutsOverflow b.spinnerTx.amounts
  | _ => false

def lastWeights (db : Db) (count : Nat) : List UInt64 :=
  (db.entries.drop (db.entries.length - count)).map (·.weight)

def medianWeight (env : Env) (db : Db) (version : UInt8) : UInt64 :=
  if 12 ≤ version then env.cumulWeightMedian db.entries else median (lastWeights db 100)

def validateSpinnerTransaction (env : Env) (db : Db) (b : Block)
    (height weight fee alreadyGeneratedCoins : UInt64) (version : UInt8) : Option UInt64 :=
  let moneyInUse := b.spinnerTx.amounts.foldl (· + ·) 0
  if version = 3 ∧ ¬ b.spinnerTx.amounts.all isValidDecomposedAmount then none
  else
    match getBlockReward env.cfg height (medianWeight env db version) weight alreadyGeneratedCoins
      version with
    | none => none
    | some reward =>
      if reward + fee < moneyInUse then none
      else if version < 2 then
        if reward + fee ≠ moneyInUse then none else some reward
      else if moneyInUse - fee ≤ reward then some (moneyInUse - fee)
      else none

end Gyro
