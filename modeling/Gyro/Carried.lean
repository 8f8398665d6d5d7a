import Gyro.Accept

/-!
# What accepted blocks say about themselves

Later blocks read eight fields of the data a block carries. The main chain compares
four of them, and a fifth it has just overwritten, with the data it computes.
-/

namespace Gyro

open Runs Exits

def AgreesWithComputed (env : Env) (fuel : Nat) (now : UInt64) (db : Db) (b : Block) : Prop :=
  ∃ d computed timeTo, b.spinData? = some d ∧
    getSpinnerData env fuel now db d.nfo SpinnerData.zero 0 = .ok (computed, timeTo) ∧
    d.locked = computed.locked ∧ d.mediumLocked = computed.mediumLocked ∧
    d.spin = computed.spin ∧ d.mediumSpin = computed.mediumSpin ∧
    d.interval = computed.interval ∧ d.mediumInterval = computed.mediumInterval ∧
    d.approximatelyCount = computed.approximatelyCount ∧
    d.nfo.prevuosHeight = computed.nfo.prevuosHeight

section
variable (cfg : Config) (db : Db) (d : SpinnerData)

def previousSpin : UInt64 :=
  if cfg.startAmountBlocks < startHeight db d.nfo then
    (((db.getBlockFromHeight (startHeight db d.nfo)).map Block.spinnerData).getD SpinnerData.zero).spin
  else 0

def drivenBy : UInt64 :=
  let window := cfg.spinnerSpinBlockWindow * ((tipData cfg db).mediumSpin + 1) /
    (previousSpin cfg db d + 1)
  if (db.getTxBlockHeight d.nfo.proof.txid).getD 0 + window < db.height - 1 then
    cfg.spinnerAmountMinLock
  else d.locked

def meanLocked : UInt64 :=
  let tip := tipData cfg db
  if 0 < tip.mediumLocked then
    narrow ((wide tip.mediumLocked * wide tip.approximatelyCount +
      wide (drivenBy cfg db d * cfg.spinnerCountPrecision)) /
      wide (tip.approximatelyCount + cfg.spinnerCountPrecision))
  else drivenBy cfg db d

def nextCount : UInt64 :=
  let count :=
    if cfg.startAmountBlocks < db.height - 1 then (tipData cfg db).approximatelyCount
    else cfg.spinnerCountPrecision
  if d.mediumInterval < cfg.durationTarget then count + 1
  else if cfg.durationTarget < d.mediumInterval ∧ 1 < count then count - 1
  else count

end

/-- The block tells the truth in the fields nobody compares. -/
structure TruthfulData (env : Env) (fuel : Nat) (db : Db) (d : SpinnerData) : Prop where
  /-- The amount its lock transactions add up to. -/
  locked : calcSpinnerTransactionLocked env fuel db d.nfo = .ok (some d.locked)
  mediumLocked : d.mediumLocked = meanLocked env.cfg db d
  approximatelyCount : d.approximatelyCount = nextCount env.cfg db d
  /-- The height the index has for its key, if the index has one. -/
  prevuosHeight : d.nfo.prevuosHeight = startHeight db d.nfo

section
variable {env : Env} {fuel : Nat} {now : UInt64} {db db' : Db} {b : Block}
  {txs : List Transaction} {weight : UInt64} {v : Verified} {d computed : SpinnerData}
  {r : SpinReads}

theorem div128_eq_ok {a b q : BitVec 128} (h : div128 a b = .ok q) : b ≠ 0 ∧ q = a / b := by
  unfold div128 at h
  split at h
  · cases h
  · rename_i hb
    cases h
    exact ⟨hb, rfl⟩

theorem runningMean_eq_ok {cfg : Config} {prevMean count x mean : UInt64}
    (h : runningMean cfg prevMean count x = .ok mean) : mean = if 0 < prevMean then
      narrow ((wide prevMean * wide count + wide (x * cfg.spinnerCountPrecision)) /
        wide (count + cfg.spinnerCountPrecision)) else x := by
  unfold runningMean at h
  split at h
  · rename_i hp
    obtain ⟨q, hq, h⟩ := bind_eq_ok.mp h
    cases h
    rw [if_pos hp, (div128_eq_ok hq).2]
  · rename_i hp
    cases h
    rw [if_neg hp]

theorem readChain_prevSpin (h : readChain env db fuel (db.height - 1) now d.nfo = .ok r) :
    r.prevSpin.spin = previousSpin env.cfg db d := by
  obtain ⟨_, _, _, _, hc⟩ := readChain_eq_ok h
  unfold previousSpin
  obtain ⟨hs, b, d', locked, hr⟩ | ⟨hs, proofHeight, hr⟩ := hc
  · rw [if_pos hs, hr.block, hr.prevSpin]
    simp [spinnerData_of_spinData? hr.data]
  · rw [if_neg hs, hr.prevSpin]
    rfl

theorem computed_fields {timeTo : UInt64} (hs : env.cfg.startAmountBlocks < db.height)
    (hg : getSpinnerData env fuel now db d.nfo SpinnerData.zero 0 = .ok (computed, timeTo))
    (hl : computed.locked = d.locked) (hme : computed.mediumInterval = d.mediumInterval) :
    calcSpinnerTransactionLocked env fuel db d.nfo = .ok (some d.locked) ∧
      computed.mediumLocked = meanLocked env.cfg db d ∧ computed.approximatelyCount = nextCount env.cfg db d ∧
      computed.nfo.prevuosHeight = startHeight db d.nfo := by
  obtain ⟨r, locked, proofHeight, hr, _, ha, hp, hcp⟩ :=
    getSpinnerData_eq_ok (not_pred_lt hs) hg
  obtain ⟨driving, hc⟩ := computeData_eq_ok hcp
  obtain ⟨hh, hpr, hd, _, _⟩ := readChain_eq_ok hr
  have hld : locked = d.locked := hc.locked.symm.trans hl
  subst hld
  have hdr : driving = drivenBy env.cfg db d := by
    obtain ⟨window, hi, ht⟩ := bind_eq_ok.mp hc.drives
    cases ht
    unfold drivenBy
    rw [(div64_eq_ok hi).2, hd, readChain_prevSpin hr, hh, hp]
    rfl
  refine ⟨ha, ?_, ?_, ?_⟩
  · rw [runningMean_eq_ok hc.mediumLocked, hd, hdr]
    rfl
  · rw [hc.count, hme]
    unfold computeCount nextCount
    rw [hh, hd]
  · rw [hc.nfo]
    exact hpr

theorem Extends.agrees_iff (h : Extends env fuel now db b db' txs weight v)
    (hs : env.cfg.startAmountBlocks < db.height) :
    AgreesWithComputed env fuel now db b ↔ TruthfulData env fuel db b.spinnerData := by
  obtain ⟨d, locked, computed, timeTo, hd, hc, hg, ho, hp, hms, hi, hmi⟩ := h.compared hs
  rw [spinnerData_of_spinData? hd]
  constructor
  · rintro ⟨d', computed', timeTo', hd', hg', hl, hml, _, _, _, _, hco, hr⟩
    rw [hd] at hd'
    cases hd'
    rw [hg] at hg'
    cases hg'
    obtain ⟨h1, h2, h3, h4⟩ := computed_fields hs hg hl.symm hmi.symm
    exact ⟨h1, hml.trans h2, hco.trans h3, hr.trans h4⟩
  · intro ht
    have hl : computed.locked = d.locked := by
      have heq := hc.symm.trans ht.locked
      injection heq with heq
      injection heq with heq
      rw [ho, heq]
    obtain ⟨_, h2, h3, h4⟩ := computed_fields hs hg hl hmi.symm
    exact ⟨d, computed, timeTo, hd, hg, hl.symm, ht.mediumLocked.trans h2.symm, hp, hms, hi, hmi,
      ht.approximatelyCount.trans h3.symm, ht.prevuosHeight.trans h4.symm⟩

end

/-- In every run of accepted blocks, a block above the start blocks agrees with the computed data
exactly when it is truthful in the fields nobody compares. -/
theorem carried_data_agrees_iff {env : Env} {fuel : Nat} {st₀ s t : Blockchain}
    {pre post : List Arrival} {a : Arrival} (hrun : run (Blockchain.accept env fuel) st₀ (pre ++ a :: post) = some t)
    (hpre : run (Blockchain.accept env fuel) st₀ pre = some s)
    (hs : env.cfg.startAmountBlocks < s.db.height) : AgreesWithComputed env fuel a.now s.db a.block ↔
      TruthfulData env fuel s.db a.block.spinnerData := by
  obtain ⟨s', u, hs', ht, _⟩ := run_split hrun
  rw [hpre] at hs'
  cases hs'
  obtain ⟨txs, weight, v, hx⟩ := accept_extends ht
  exact hx.agrees_iff hs

namespace Sample

def computedCount (s : Blockchain) : Option UInt64 :=
  (getSpinnerData (env config) 2 1000000 s.db alice SpinnerData.zero 0).toOption.map
    (·.1.approximatelyCount)

theorem startArrivals_accepted : ∃ s, run (Blockchain.accept (env config) 2) node (startArrivals config) = some s ∧
      s.db.height = 9 ∧ computedCount s = some 10 := by
  have hv : ((run (Blockchain.accept (env config) 2) node (startArrivals config)).map
      fun s => (s.db.height, computedCount s)) = some (9, some 10) := by decide +kernel
  obtain ⟨s, hs, heq⟩ := Option.map_eq_some_iff.mp hv
  exact ⟨s, hs, congrArg Prod.fst heq, congrArg Prod.snd heq⟩

def inflatedData : SpinnerData := { firstData with approximatelyCount := 77 }

end Sample

open Sample in
theorem carried_data_agrees_for_first_block :
    ∃ s, run (Blockchain.accept (env config) 2) node (startArrivals config) = some s ∧
      (AgreesWithComputed (env config) 2 1000000 s.db (spinnerBlock 9 1080 39997744859481 firstData) ↔
        TruthfulData (env config) 2 s.db (spinnerBlock 9 1080 39997744859481 firstData).spinnerData) := by
  obtain ⟨s, hs, hh, _⟩ := startArrivals_accepted
  have ha : (run (Blockchain.accept (env config) 2) node (firstArrivals firstData)).isSome = true := by
    decide +kernel
  obtain ⟨t, ht⟩ := Option.isSome_iff_exists.mp ha
  refine ⟨s, hs, ?_⟩
  refine @carried_data_agrees_iff (env config) 2 node s t (startArrivals config) []
    (arrival (spinnerBlock 9 1080 39997744859481 firstData)) ht hs ?_
  rw [hh]
  decide

open Sample in
/-- Alice's block counts 77 spinners where `get_spinner_data` counts 10. -/
theorem accepted_block_disagrees :
    ¬ ∀ (env : Env) (fuel : Nat) (st₀ s t : Blockchain) (pre post : List Arrival) (a : Arrival),
      st₀.db = Db.empty → run (Blockchain.accept env fuel) st₀ (pre ++ a :: post) = some t →
      run (Blockchain.accept env fuel) st₀ pre = some s → env.cfg.startAmountBlocks < s.db.height →
      AgreesWithComputed env fuel a.now s.db a.block := by
  intro h
  obtain ⟨s, hs, hh, ho⟩ := startArrivals_accepted
  have ha : (run (Blockchain.accept (env config) 2) node (firstArrivals inflatedData)).isSome = true := by
    decide +kernel
  obtain ⟨t, ht⟩ := Option.isSome_iff_exists.mp ha
  have hg := h (env config) 2 node s t (startArrivals config) []
    (arrival (spinnerBlock 9 1080 39997744859481 inflatedData)) rfl ht hs (by rw [hh]; decide)
  obtain ⟨d, computed, timeTo, hd, hge, _, _, _, _, _, _, hc, _⟩ := hg
  have hr : (spinnerBlock 9 1080 39997744859481 inflatedData).spinData? = some inflatedData := by
    decide +kernel
  have hda : d = inflatedData := Option.some.inj (hd.symm.trans hr)
  subst hda
  have hcm : computedCount s = some computed.approximatelyCount := by
    change (getSpinnerData (env config) 2 1000000 s.db inflatedData.nfo SpinnerData.zero 0).toOption.map
      (·.1.approximatelyCount) = _
    have hg' : getSpinnerData (env config) 2 1000000 s.db inflatedData.nfo SpinnerData.zero 0 =
      .ok (computed, timeTo) := hge
    rw [hg']
    rfl
  rw [ho, ← hc] at hcm
  revert hcm
  decide

end Gyro
