import Mathlib.Data.Nat.Notation

/-!
# Network parameters

The values of `cryptonote_config.cpp`, which command line options may set.
`Config.default` holds them when no option is given.
-/

namespace Gyro

/-- A hash or a public key: 32 bytes, the first byte lowest. -/
abbrev Hash := BitVec 256
abbrev PublicKey := BitVec 256
abbrev Signature := BitVec 512
abbrev Blob := List UInt8

instance lawfulBEqHash : LawfulBEq Hash := inferInstance

def nullHash : Hash := 0
def nullPkey : PublicKey := 0

structure HardForkEntry where
  version : UInt8
  height : UInt64
  deriving DecidableEq, Repr

structure Config where
  durationTarget : UInt64
  spinnerAmountMinLock : UInt64
  spinnerMomentOfInertia : UInt64
  spinnerDampingRatioDivider : UInt64
  spinnerEnergyCostMultiplier : UInt64
  spinnerPvrbBlockWindow : UInt64
  spinnerSpinBlockWindow : UInt64
  spinnerCountPrecision : UInt64
  emissionSubsidyPerMinute : UInt64
  finalSubsidyPerMinute : UInt64
  coin : UInt64
  startAmountBlocks : UInt64
  startAmount : UInt64
  /-- The forks `add_fork` has registered, in order. -/
  hardForks : List HardForkEntry
  /-- Height and hash of every checkpoint. -/
  checkpoints : List (UInt64 × Hash)

/-- The built-in values. Versions 1 and 12 are listed at one height, so `add_fork` registers only
the first. -/
def Config.default : Config where
  durationTarget := 120
  spinnerAmountMinLock := 1000000000000
  spinnerMomentOfInertia := 5
  spinnerDampingRatioDivider := 2000
  spinnerEnergyCostMultiplier := 100000
  spinnerPvrbBlockWindow := 5
  spinnerSpinBlockWindow := 100
  spinnerCountPrecision := 10
  emissionSubsidyPerMinute := 20
  finalSubsidyPerMinute := 3000000000
  coin := 1000000000000
  startAmountBlocks := 100
  startAmount := 1000 * 1000000000000
  hardForks := [{ version := 1, height := 1 }]
  checkpoints := []

def cryptonoteMaxBlockNumber : UInt64 := 500000000
def spinnedMoneyUnlockWindow : UInt64 := 60
def spinnedMoneyLockedBlocks : UInt64 := cryptonoteMaxBlockNumber
def blockFutureTimeLimit : UInt64 := 60 * 60 * 2
def blockchainTimestampCheckWindow : Nat := 60
def moneySupply : UInt64 := 0xffffffffffffffff
def gyroNumberOfDimensionals : Nat := 256

end Gyro
