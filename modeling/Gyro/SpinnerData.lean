import Gyro.Locked
import Gyro.Lib.Exits

/-!
# `get_spinner_data`

The data the next block of a spinner must carry, in unsigned words that wrap. A division
by zero and a database read that throws end the call; the search loop runs on fuel.
-/

namespace Gyro

inductive Stop where
  | returnFalse (timeTo : UInt64)
  | fault (f : Fault)
  deriving DecidableEq, Repr

def wide (x : UInt64) : BitVec 128 := x.toBitVec.setWidth 128

def narrow (x : BitVec 128) : UInt64 := UInt64.ofBitVec (x.setWidth 64)

def div64 (a b : UInt64) : Except Stop UInt64 :=
  if b = 0 then .error (.fault .divisionByZero) else .ok (a / b)

def div128 (a b : BitVec 128) : Except Stop (BitVec 128) :=
  if b = 0 then .error (.fault .divisionByZero) else .ok (a / b)

def Block.spinData? (b : Block) : Option SpinnerData :=
  b.spinnerTx.spinDataFromExtra.bind parseSpinnerData

structure SpinReads where
  height : UInt64
  prevuosHeight : UInt64
  prevData : SpinnerData
  prevTimestamp : UInt64
  prevSpin : SpinnerData
  spinTimestamp : UInt64
  mediumInterval : UInt64
  timeTo : UInt64

/-- The index, or the height the block claims when the index has none. -/
def startHeight (db : Db) (info : SpinnerInfo) : UInt64 :=
  let prevuosHeight := db.getSpinnerHeight info.adr.viewPublicKey
  if prevuosHeight = 0 then info.prevuosHeight else prevuosHeight

variable {env : Env} {db : Db} {cfg : Config} {info : SpinnerInfo} {fuel : Nat} {now : UInt64} {r : SpinReads}
  {d : SpinnerData}

section
variable (env : Env) (db : Db)

def readTip (height now : UInt64) : Except Stop (SpinnerData × UInt64) :=
  if env.cfg.startAmountBlocks < height then
    match db.getBlockFromHeight height with
    | none => .error (.fault .dbError)
    | some b =>
      match b.spinData? with
      | none => .error (.returnFalse now)
      | some prevData => .ok (prevData, b.timestamp)
  else .ok (SpinnerData.zero, 0)

/-- The `for(;;)`: it reads the block at `prevuosHeight` until that block is
the spinner's own. -/
def searchPrevuos (info : SpinnerInfo) (prevuosHeight now : UInt64) : Nat → Except Stop (SpinnerData × UInt64)
  | 0 => .error (.fault .outOfFuel)
  | fuel + 1 =>
    match db.getBlockFromHeight prevuosHeight with
    | none => .error (.fault .dbError)
    | some b =>
      match b.spinData? with
      | none => .error (.returnFalse now)
      | some prevSpin =>
        if prevSpin.nfo.adr = info.adr then .ok (prevSpin, b.timestamp)
        else searchPrevuos info prevuosHeight now fuel

/-- Mean block time since the block before the spinner's previous one, or since that. -/
def elapsedInterval (height prevuosHeight : UInt64) (prevData : SpinnerData) (prevTimestamp : UInt64)
    (prevSpin : SpinnerData) (spinTimestamp : UInt64) : Except Stop UInt64 :=
  if env.cfg.startAmountBlocks < prevSpin.nfo.prevuosHeight then
    match db.getBlockTimestamp prevSpin.nfo.prevuosHeight with
    | none => .error (.fault .dbError)
    | some timestamp => div64 (prevTimestamp - timestamp) (height - prevSpin.nfo.prevuosHeight)
  else if prevuosHeight < height then
    div64 (prevTimestamp - spinTimestamp) (height - prevuosHeight)
  else .ok prevData.mediumInterval

def requireLocked (fuel : Nat) (nfo : SpinnerInfo) (timeTo : UInt64) : Except Stop UInt64 :=
  match calcSpinnerTransactionLocked env fuel db nfo with
  | .error f => .error (.fault f)
  | .ok none => .error (.returnFalse timeTo)
  | .ok (some locked) => .ok locked

/-- The reads for a spinner that has a block above the start blocks. -/
def readReturning (fuel : Nat) (height prevuosHeight now : UInt64) (info : SpinnerInfo)
    (tip : SpinnerData × UInt64) : Except Stop SpinReads := do
  let (prevSpin, spinTimestamp) ← searchPrevuos db info prevuosHeight now fuel
  let mediumInterval ←
    elapsedInterval env db height prevuosHeight tip.1 tip.2 prevSpin spinTimestamp
  let locked ← requireLocked env db fuel prevSpin.nfo now
  return { height, prevuosHeight, prevData := tip.1, prevTimestamp := tip.2
           prevSpin := { prevSpin with locked }, spinTimestamp, mediumInterval
           timeTo := spinTimestamp + prevSpin.interval }

/-- The reads for a spinner that has none: it waits from its lock transaction on. -/
def readFirst (height prevuosHeight now : UInt64) (info : SpinnerInfo)
    (tip : SpinnerData × UInt64) : Except Stop SpinReads :=
  match db.getTxBlockHeight info.proof.txid with
  | none => .error (.returnFalse now)
  | some proofHeight =>
    match db.getBlockTimestamp proofHeight with
    | none => .error (.fault .dbError)
    | some spinTimestamp =>
      .ok { height, prevuosHeight, prevData := tip.1, prevTimestamp := tip.2
            prevSpin := SpinnerData.zero, spinTimestamp
            mediumInterval := env.cfg.durationTarget
            timeTo := spinTimestamp + env.cfg.durationTarget }

def readChain (fuel : Nat) (height now : UInt64) (info : SpinnerInfo) : Except Stop SpinReads := do
  let tip ← readTip env db height now
  let prevuosHeight := startHeight db info
  if env.cfg.startAmountBlocks < prevuosHeight then
    readReturning env db fuel height prevuosHeight now info tip
  else readFirst env db height prevuosHeight now info tip

end

section
variable (cfg : Config)

/-- The amount that drives the spin: the minimum once the lock is too old. -/
def drivingLocked (r : SpinReads) (locked proofHeight : UInt64) : Except Stop UInt64 := do
  let window ← div64 (cfg.spinnerSpinBlockWindow * (r.prevData.mediumSpin + 1)) (r.prevSpin.spin + 1)
  return if proofHeight + window < r.height then cfg.spinnerAmountMinLock else locked

def picoX : BitVec 128 := 1000000000000

/-- The square of the spin that the energy above the damping makes. -/
def excessSquare (sumE dampA : BitVec 128) : Except Stop (BitVec 128) :=
  if dampA < sumE then div128 ((sumE - dampA) * 2) (wide cfg.spinnerMomentOfInertia) else .ok 0

/-- The energy left after damping, in picojoule, with the energy of the lock added. -/
def computeSpin (r : SpinReads) (locked : UInt64) : Except Stop UInt64 := do
  let spinPow2 := wide r.prevSpin.spin * wide r.prevSpin.spin
  let E := picoX * wide cfg.spinnerMomentOfInertia * spinPow2 / 2
  let dE := wide (locked * cfg.spinnerEnergyCostMultiplier)
  let sumE := E + dE
  let dampA ← div128
    (picoX * spinPow2 * wide (r.prevTimestamp - r.spinTimestamp + cfg.durationTarget))
    (wide cfg.spinnerDampingRatioDivider)
  let x2 ← excessSquare cfg sumE dampA
  return narrow (BitVec.ofNat 128 (IntegerRoot.isqrt 64 x2.toNat) / 1000000)

def runningMean (prevMean count x : UInt64) : Except Stop UInt64 :=
  if 0 < prevMean then do
    let mean ← div128 (wide prevMean * wide count + wide (x * cfg.spinnerCountPrecision))
      (wide (count + cfg.spinnerCountPrecision))
    return narrow mean
  else .ok x

def computeMediumInterval (r : SpinReads) : Except Stop UInt64 :=
  if cfg.startAmountBlocks < r.prevuosHeight then do
    let q ← div64 (2 * cfg.spinnerCountPrecision) r.prevData.approximatelyCount
    let n := 1 + q
    div64 (r.prevData.mediumInterval * n + r.mediumInterval) (n + 1)
  else .ok r.mediumInterval

def computeCount (r : SpinReads) (mediumInterval : UInt64) : UInt64 :=
  let count :=
    if cfg.startAmountBlocks < r.height then r.prevData.approximatelyCount
    else cfg.spinnerCountPrecision
  if mediumInterval < cfg.durationTarget then count + 1
  else if cfg.durationTarget < mediumInterval ∧ 1 < count then count - 1
  else count

def computeInterval (count spin mediumSpin mediumInterval : UInt64) : Except Stop UInt64 := do
  let target := wide cfg.durationTarget
  let bySpin ← div128 (wide (count + 1) * target * wide (mediumSpin + 1)) (wide (spin + 1))
  let byInterval ← div128 (bySpin * target) (wide mediumInterval)
  let interval ← div128 byInterval (wide cfg.spinnerCountPrecision)
  return narrow interval

def computeData (r : SpinReads) (info : SpinnerInfo) (locked proofHeight : UInt64) :
    Except Stop SpinnerData := do
  let driving ← drivingLocked cfg r locked proofHeight
  let spin ← computeSpin cfg r driving
  let mediumLocked ←
    runningMean cfg r.prevData.mediumLocked r.prevData.approximatelyCount driving
  let mediumSpin ← runningMean cfg r.prevData.mediumSpin r.prevData.approximatelyCount spin
  let mediumInterval ← computeMediumInterval cfg r
  let approximatelyCount := computeCount cfg r mediumInterval
  let interval ← computeInterval cfg approximatelyCount spin mediumSpin mediumInterval
  return { nfo := { info with prevuosHeight := r.prevuosHeight }
           approximatelyCount, locked, mediumLocked, spin, mediumSpin, interval, mediumInterval }

end

def requireTime (now timeTo : UInt64) : Except Stop Unit :=
  if now < timeTo then .error (.returnFalse timeTo) else .ok ()

def requireTxHeight (db : Db) (txid : Hash) : Except Stop UInt64 :=
  match db.getTxBlockHeight txid with
  | none => .error (.fault .dbError)
  | some proofHeight => .ok proofHeight

/-- `get_spinner_data(info, res, time_to)`; on success the data and `time_to`. -/
def getSpinnerData (env : Env) (fuel : Nat) (now : UInt64) (db : Db) (info : SpinnerInfo)
    (res : SpinnerData) (timeTo : UInt64) : Except Stop (SpinnerData × UInt64) :=
  let height := db.height - 1
  if height < env.cfg.startAmountBlocks then
    .ok ({ res with interval := env.cfg.durationTarget }, timeTo)
  else do
    let r ← readChain env db fuel height now info
    requireTime now r.timeTo
    let locked ← requireLocked env db fuel info r.timeTo
    let proofHeight ← requireTxHeight db info.proof.txid
    let data ← computeData env.cfg r info locked proofHeight
    return (data, r.timeTo)

section
open Exits

theorem div64_failsOnly (a b : UInt64) : FailsOnly (· = .fault .divisionByZero) (div64 a b) :=
  FailsOnly.ite (fun _ => failsOnly_error rfl) (fun _ => failsOnly_ok _)

theorem div128_failsOnly (a b : BitVec 128) : FailsOnly (· = .fault .divisionByZero) (div128 a b) :=
  FailsOnly.ite (fun _ => failsOnly_error rfl) (fun _ => failsOnly_ok _)

theorem runningMean_failsOnly (prevMean count x : UInt64) :
    FailsOnly (· = .fault .divisionByZero) (runningMean cfg prevMean count x) :=
  FailsOnly.ite (fun _ => (div128_failsOnly _ _).bind fun _ _ => failsOnly_ok _)
    (fun _ => failsOnly_ok _)

theorem computeSpin_failsOnly (r : SpinReads) (locked : UInt64) :
    FailsOnly (· = .fault .divisionByZero) (computeSpin cfg r locked) := by
  refine (div128_failsOnly _ _).bind fun dampA _ => ?_
  refine FailsOnly.bind ?_ fun _ _ => failsOnly_ok _
  exact FailsOnly.ite (fun _ => div128_failsOnly _ _) (fun _ => failsOnly_ok _)

theorem computeMediumInterval_failsOnly (r : SpinReads) :
    FailsOnly (· = .fault .divisionByZero) (computeMediumInterval cfg r) :=
  FailsOnly.ite (fun _ => (div64_failsOnly _ _).bind fun _ _ => div64_failsOnly _ _)
    (fun _ => failsOnly_ok _)

theorem computeInterval_failsOnly (count spin mediumSpin mediumInterval : UInt64) :
    FailsOnly (· = .fault .divisionByZero) (computeInterval cfg count spin mediumSpin mediumInterval) := by
  refine (div128_failsOnly _ _).bind fun _ _ => ?_
  refine (div128_failsOnly _ _).bind fun _ _ => ?_
  exact (div128_failsOnly _ _).bind fun _ _ => failsOnly_ok _

theorem requireTxHeight_failsOnly (txid : Hash) : FailsOnly (· = .fault .dbError) (requireTxHeight db txid) := by
  unfold requireTxHeight
  split
  · exact failsOnly_error rfl
  · exact failsOnly_ok _

theorem computeData_failsOnly (r : SpinReads) (info : SpinnerInfo) (locked proofHeight : UInt64) :
    FailsOnly (· = .fault .divisionByZero) (computeData cfg r info locked proofHeight) := by
  refine FailsOnly.bind ((div64_failsOnly _ _).bind fun _ _ => failsOnly_ok _) fun _ _ => ?_
  refine (computeSpin_failsOnly _ _).bind fun _ _ => ?_
  refine (runningMean_failsOnly _ _ _).bind fun _ _ => ?_
  refine (runningMean_failsOnly _ _ _).bind fun _ _ => ?_
  refine (computeMediumInterval_failsOnly _).bind fun _ _ => ?_
  exact (computeInterval_failsOnly _ _ _ _).bind fun _ _ => failsOnly_ok _

/-- A block or a transaction that the node does not have. -/
def Stop.Missing : Stop → Prop
  | .returnFalse _ => True
  | .fault f => f = .dbError

theorem missing_ne {f : Fault} (hf : f ≠ .dbError) (e : Stop) (h : e.Missing) : e ≠ .fault f := by
  rintro rfl
  exact hf h

variable {P : Stop → Prop} (hP : ∀ e : Stop, e.Missing → P e)
include hP

theorem readTip_failsOnly (height : UInt64) : FailsOnly P (readTip env db height now) := by
  refine FailsOnly.ite (fun _ => ?_) (fun _ => failsOnly_ok _)
  split
  · exact failsOnly_error (hP _ rfl)
  · split
    · exact failsOnly_error (hP _ trivial)
    · exact failsOnly_ok _

theorem readFirst_failsOnly (height prevuosHeight : UInt64) (tip : SpinnerData × UInt64) :
    FailsOnly P (readFirst env db height prevuosHeight now info tip) := by
  unfold readFirst
  split
  · exact failsOnly_error (hP _ trivial)
  · split
    · exact failsOnly_error (hP _ rfl)
    · exact failsOnly_ok _

theorem elapsedInterval_failsOnly {height prevuosHeight : UInt64} {prevData prevSpin : SpinnerData}
    (hs : env.cfg.startAmountBlocks < prevSpin.nfo.prevuosHeight →
      ∀ a, FailsOnly P (div64 a (height - prevSpin.nfo.prevuosHeight)))
    (hl : prevuosHeight < height → ∀ a, FailsOnly P (div64 a (height - prevuosHeight))) (prevTimestamp spinTimestamp : UInt64) :
    FailsOnly P (elapsedInterval env db height prevuosHeight prevData prevTimestamp prevSpin spinTimestamp) := by
  refine FailsOnly.ite (fun h => ?_) (fun _ => FailsOnly.ite (fun h => hl h _) (fun _ => failsOnly_ok _))
  split
  · exact failsOnly_error (hP _ rfl)
  · exact hs h _

theorem getSpinnerData_failsOnly {res : SpinnerData} {timeTo : UInt64}
    (hr : FailsOnly P (readChain env db fuel (db.height - 1) now info))
    (hl : ∀ t, FailsOnly P (requireLocked env db fuel info t))
    (hc : ∀ r locked proofHeight, readChain env db fuel (db.height - 1) now info = .ok r →
      FailsOnly P (computeData env.cfg r info locked proofHeight)) :
    FailsOnly P (getSpinnerData env fuel now db info res timeTo) := by
  refine FailsOnly.ite (fun _ => failsOnly_ok _) fun _ => ?_
  refine hr.bind fun r ho => ?_
  refine FailsOnly.bind ?_ fun _ _ => ?_
  · exact FailsOnly.ite (fun _ => failsOnly_error (hP _ trivial)) (fun _ => failsOnly_ok _)
  refine (hl _).bind fun locked _ => ?_
  refine ((requireTxHeight_failsOnly _).mono (by rintro _ rfl; exact hP _ rfl)).bind fun proofHeight _ => ?_
  exact (hc r _ _ ho).bind fun _ _ => failsOnly_ok _

end

section
open Exits

theorem div64_eq_ok {a b q : UInt64} (h : div64 a b = .ok q) : b ≠ 0 ∧ q = a / b := by
  unfold div64 at h
  split at h
  · cases h
  · rename_i hb
    cases h
    exact ⟨hb, rfl⟩

theorem toNat_wide (x : UInt64) : (wide x).toNat = x.toNat := by
  unfold wide
  rw [BitVec.toNat_setWidth]
  exact Nat.mod_eq_of_lt (Nat.lt_trans x.toNat_lt (by norm_num))

theorem toNat_narrow_root {root : Nat} (h : root < 2 ^ 64) :
    (narrow (BitVec.ofNat 128 root / 1000000)).toNat = root / 1000000 := by
  have ho : root % 2 ^ 128 = root := Nat.mod_eq_of_lt (by omega)
  change ((BitVec.ofNat 128 root / 1000000).setWidth 64).toNat = _
  rw [BitVec.toNat_setWidth, BitVec.toNat_udiv, BitVec.toNat_ofNat, ho]
  exact Nat.mod_eq_of_lt (Nat.lt_of_le_of_lt (Nat.div_le_self _ _) h)

theorem computeSpin_lt {locked spin : UInt64} (h : computeSpin cfg r locked = .ok spin) :
    spin.toNat * 1000000 < 2 ^ 64 := by
  obtain ⟨dampA, _, h⟩ := bind_eq_ok.mp h
  obtain ⟨x2, _, h⟩ := bind_eq_ok.mp h
  cases h
  have hx2 : x2.toNat < 4 ^ 64 := Nat.lt_of_lt_of_eq x2.isLt (by norm_num)
  have hr := IntegerRoot.isqrt_lt_two_pow hx2
  rw [toNat_narrow_root hr]
  exact Nat.lt_of_le_of_lt (Nat.div_mul_le_self _ _) hr

structure Computed (cfg : Config) (r : SpinReads) (info : SpinnerInfo) (locked proofHeight : UInt64)
    (d : SpinnerData) (driving : UInt64) : Prop where
  drives : drivingLocked cfg r locked proofHeight = .ok driving
  spin : computeSpin cfg r driving = .ok d.spin
  mediumLocked :
    runningMean cfg r.prevData.mediumLocked r.prevData.approximatelyCount driving = .ok d.mediumLocked
  mediumSpin :
    runningMean cfg r.prevData.mediumSpin r.prevData.approximatelyCount d.spin = .ok d.mediumSpin
  mediumInterval : computeMediumInterval cfg r = .ok d.mediumInterval
  count : d.approximatelyCount = computeCount cfg r d.mediumInterval
  interval :
    computeInterval cfg d.approximatelyCount d.spin d.mediumSpin d.mediumInterval = .ok d.interval
  nfo : d.nfo = { info with prevuosHeight := r.prevuosHeight }
  locked : d.locked = locked

theorem computeData_eq_ok {locked proofHeight : UInt64} (h : computeData cfg r info locked proofHeight = .ok d) :
    ∃ driving, Computed cfg r info locked proofHeight d driving := by
  obtain ⟨driving, hd, h⟩ := bind_eq_ok.mp h
  obtain ⟨spin, hs, h⟩ := bind_eq_ok.mp h
  obtain ⟨mediumLocked, hl, h⟩ := bind_eq_ok.mp h
  obtain ⟨mediumSpin, hmd, h⟩ := bind_eq_ok.mp h
  obtain ⟨mediumInterval, hme, h⟩ := bind_eq_ok.mp h
  obtain ⟨interval, hi, h⟩ := bind_eq_ok.mp h
  cases h
  exact ⟨driving, hd, hs, hl, hmd, hme, rfl, hi, rfl, rfl⟩

theorem requireLocked_eq_ok {nfo : SpinnerInfo} {timeTo locked : UInt64}
    (h : requireLocked env db fuel nfo timeTo = .ok locked) :
    calcSpinnerTransactionLocked env fuel db nfo = .ok (some locked) := by
  unfold requireLocked at h
  split at h
  · cases h
  · cases h
  · rename_i l hl
    cases h
    exact hl

theorem getSpinnerData_eq_ok {res : SpinnerData} {timeTo₀ timeTo : UInt64}
    (hs : ¬ db.height - 1 < env.cfg.startAmountBlocks)
    (h : getSpinnerData env fuel now db info res timeTo₀ = .ok (d, timeTo)) :
    ∃ r locked proofHeight, readChain env db fuel (db.height - 1) now info = .ok r ∧
      r.timeTo ≤ now ∧ calcSpinnerTransactionLocked env fuel db info = .ok (some locked) ∧
      db.getTxBlockHeight info.proof.txid = some proofHeight ∧
      computeData env.cfg r info locked proofHeight = .ok d := by
  unfold getSpinnerData at h
  rw [if_neg hs] at h
  obtain ⟨r, hr, h⟩ := bind_eq_ok.mp h
  obtain ⟨_, ht, h⟩ := bind_eq_ok.mp h
  obtain ⟨locked, hl, h⟩ := bind_eq_ok.mp h
  obtain ⟨proofHeight, hp, h⟩ := bind_eq_ok.mp h
  obtain ⟨data, hd, h⟩ := bind_eq_ok.mp h
  cases h
  refine ⟨r, locked, proofHeight, hr, ?_, ?_, ?_, hd⟩
  · unfold requireTime at ht
    split at ht
    · cases ht
    · rename_i hle
      simpa using hle
  · exact requireLocked_eq_ok hl
  · unfold requireTxHeight at hp
    split at hp
    · cases hp
    · rename_i h' hh'
      cases hp
      exact hh'

theorem searchPrevuos_eq_ok {prevuosHeight : UInt64} {d : SpinnerData} {ts : UInt64}
    (h : searchPrevuos db info prevuosHeight now fuel = .ok (d, ts)) :
    ∃ b, db.getBlockFromHeight prevuosHeight = some b ∧ b.spinData? = some d ∧
      b.timestamp = ts ∧ d.nfo.adr = info.adr := by
  induction fuel with
  | zero => cases h
  | succ fuel ih =>
    unfold searchPrevuos at h
    split at h
    · cases h
    · rename_i b hb
      split at h
      · cases h
      · rename_i d' hd
        split at h
        · rename_i ha
          cases h
          exact ⟨b, hb, hd, rfl, ha⟩
        · exact ih h

end

def tipData (cfg : Config) (db : Db) : SpinnerData :=
  if cfg.startAmountBlocks < db.height - 1 then
    ((db.getBlockFromHeight (db.height - 1)).map Block.spinnerData).getD SpinnerData.zero
  else SpinnerData.zero

def tipTimestamp (cfg : Config) (db : Db) : UInt64 :=
  if cfg.startAmountBlocks < db.height - 1 then (db.getBlockTimestamp (db.height - 1)).getD 0 else 0

open Exits
variable {b : Block}

theorem spinnerData_of_spinData? (h : b.spinData? = some d) : b.spinnerData = d := by
  obtain ⟨blob, hb, hp⟩ := Option.bind_eq_some_iff.mp h
  simp [Block.spinnerData, spinnerDataFromExtra, hb, hp]

theorem spinnerData_of_none (h : b.spinnerTx.spinDataFromExtra = none) : b.spinnerData = SpinnerData.zero := by
  simp [Block.spinnerData, spinnerDataFromExtra, h]

theorem readTip_eq_ok {timestamp : UInt64} (h : readTip env db (db.height - 1) now = .ok (d, timestamp)) :
    d = tipData env.cfg db ∧ timestamp = tipTimestamp env.cfg db := by
  unfold readTip at h
  unfold tipData tipTimestamp
  by_cases hs : env.cfg.startAmountBlocks < db.height - 1
  · rw [if_pos hs] at h ⊢
    rw [if_pos hs]
    split at h
    · cases h
    · rename_i b hb
      split at h
      · cases h
      · rename_i d' hd
        cases h
        have ht : db.getBlockTimestamp (db.height - 1) = some b.timestamp := by
          obtain ⟨e, he, rfl⟩ := Option.map_eq_some_iff.mp hb
          simp [Db.getBlockTimestamp, he]
        rw [hb, ht]
        exact ⟨(spinnerData_of_spinData? hd).symm, rfl⟩
  · rw [if_neg hs] at h ⊢
    rw [if_neg hs]
    cases h
    exact ⟨rfl, rfl⟩

structure ReturningReads (env : Env) (db : Db) (fuel : Nat) (info : SpinnerInfo) (r : SpinReads)
    (b : Block) (d : SpinnerData) (locked : UInt64) : Prop where
  block : db.getBlockFromHeight (startHeight db info) = some b
  data : b.spinData? = some d
  own : d.nfo.adr = info.adr
  elapsed : elapsedInterval env db (db.height - 1) (startHeight db info) (tipData env.cfg db)
    (tipTimestamp env.cfg db) d b.timestamp = .ok r.mediumInterval
  proof : calcSpinnerTransactionLocked env fuel db d.nfo = .ok (some locked)
  prevSpin : r.prevSpin = { d with locked }
  spinTimestamp : r.spinTimestamp = b.timestamp
  timeTo : r.timeTo = b.timestamp + d.interval

structure FirstReads (env : Env) (db : Db) (info : SpinnerInfo) (r : SpinReads) (proofHeight : UInt64) : Prop where
  proof : db.getTxBlockHeight info.proof.txid = some proofHeight
  spinTimestamp : db.getBlockTimestamp proofHeight = some r.spinTimestamp
  prevSpin : r.prevSpin = SpinnerData.zero
  interval : r.mediumInterval = env.cfg.durationTarget
  timeTo : r.timeTo = r.spinTimestamp + env.cfg.durationTarget

theorem readReturning_eq_ok {height prevuosHeight : UInt64} {tip : SpinnerData × UInt64}
    (hh : height = db.height - 1) (hp : prevuosHeight = startHeight db info)
    (ht : tip = (tipData env.cfg db, tipTimestamp env.cfg db))
    (h : readReturning env db fuel height prevuosHeight now info tip = .ok r) :
    (∃ b d locked, ReturningReads env db fuel info r b d locked) ∧ r.height = height ∧
      r.prevuosHeight = prevuosHeight ∧ r.prevData = tip.1 ∧ r.prevTimestamp = tip.2 := by
  subst hh hp ht
  obtain ⟨⟨d, ts⟩, hs, h⟩ := bind_eq_ok.mp h
  obtain ⟨interval, hl, h⟩ := bind_eq_ok.mp h
  obtain ⟨locked, ho, h⟩ := bind_eq_ok.mp h
  cases h
  obtain ⟨b, hb, hd, rfl, ha⟩ := searchPrevuos_eq_ok hs
  refine ⟨⟨b, d, locked, ?_⟩, rfl, rfl, rfl, rfl⟩
  exact ⟨hb, hd, ha, hl, requireLocked_eq_ok ho, rfl, rfl, rfl⟩

theorem readChain_eq_ok (h : readChain env db fuel (db.height - 1) now info = .ok r) :
    r.height = db.height - 1 ∧ r.prevuosHeight = startHeight db info ∧
      r.prevData = tipData env.cfg db ∧ r.prevTimestamp = tipTimestamp env.cfg db ∧
      ((env.cfg.startAmountBlocks < startHeight db info ∧ ∃ b d locked, ReturningReads env db fuel info r b d locked) ∨
        (¬ env.cfg.startAmountBlocks < startHeight db info ∧ ∃ proofHeight, FirstReads env db info r proofHeight)) := by
  obtain ⟨⟨tipD, tipT⟩, hp, h⟩ := bind_eq_ok.mp h
  obtain ⟨rfl, rfl⟩ := readTip_eq_ok hp
  by_cases hs : env.cfg.startAmountBlocks < startHeight db info
  · rw [if_pos hs] at h
    obtain ⟨hr, hh, hv, hd, ht⟩ := readReturning_eq_ok rfl rfl rfl h
    exact ⟨hh, hv, hd, ht, .inl ⟨hs, hr⟩⟩
  · rw [if_neg hs] at h
    unfold readFirst at h
    split at h
    · cases h
    · rename_i proofHeight hpr
      split at h
      · cases h
      · rename_i ts ht
        cases h
        exact ⟨rfl, rfl, rfl, rfl, .inr ⟨hs, proofHeight, hpr, ht, rfl, rfl, rfl⟩⟩

end Gyro
