import Gyro.SpinnerData

/-!
# `get_spin`

The direction of a spin is hashed from the lock transaction and the hashes of the
blocks that follow it on the main chain.
-/

namespace Gyro

structure ChainView where
  height : UInt64
  txBlockHeight : Hash → Option UInt64
  blockHash : UInt64 → Option Hash

def Db.view (db : Db) : ChainView where
  height := db.height
  txBlockHeight := db.getTxBlockHeight
  blockHash := db.getBlockHashFromHeight

section
variable (view : ChainView)

/-- Mixes the hashes of `count` blocks from height `n` on into `x`. -/
def beaconFrom : Nat → UInt64 → Hash → Option Hash
  | 0, _, x => some x
  | count + 1, n, x =>
    match view.blockHash n with
    | none => none
    | some h => beaconFrom count (n + 1) (x ^^^ h)

/-- The window starts with the block after `h`, and the loop stops before `h + window`. -/
def beacon (window h : UInt64) : Option Hash :=
  match view.blockHash (h + 1) with
  | none => none
  | some x => beaconFrom view ((h + window).toNat - (h + 2).toNat) (h + 2) x

end

def spinVector (txid beacon : Hash) : Components where
  toList := [1, 2, 3, 4, 5, 6, 7, 8].flatMap fun n =>
    (hashBytes (cnFastHash (n :: hashBytes txid ++ hashBytes beacon))).map (·.toInt8)
  length_eq := by simp [hashBytes, bytesOf_length, gyroNumberOfDimensionals]

def spinMagnitude (m : UInt64) (v : Components) : UInt64 :=
  narrow (wide (m * 1024) / calcVectorModule v)

/-- `none` is `return false`: the window after the lock transaction is not over. -/
def ChainView.getSpin (view : ChainView) (cfg : Config) (txid : Hash) (m : UInt64) :
    Except Fault (Option SpinType) :=
  match view.txBlockHeight txid with
  | none => .error .dbError
  | some h =>
    if view.height ≤ h + cfg.spinnerPvrbBlockWindow then .ok none
    else
      match beacon view cfg.spinnerPvrbBlockWindow h with
      | none => .error .dbError
      | some x =>
        let v := spinVector txid x
        .ok (some { m := spinMagnitude m v, v := v })

def getSpin (cfg : Config) (db : Db) (txid : Hash) (m : UInt64) : Except Fault (Option SpinType) :=
  db.view.getSpin cfg txid m

end Gyro
