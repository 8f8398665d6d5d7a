import Gyro.Accept

/-!
# The waiting time of a spinner

A spinner that made a block has to wait for the interval it carries before
its next block is accepted. The wait is measured on the clock of the node
that verifies, not on the timestamps of the blocks.
-/

namespace Gyro

open Runs LastIndex

def Block.madeBy (b : Block) (adr : AccountPublicAddress) : Bool :=
  b.spinData?.any (·.nfo.adr = adr)

def latestOf (db : Db) (adr : AccountPublicAddress) : Option Nat :=
  lastIndex (fun e => e.block.madeBy adr) db.entries

section
variable {env : Env} {fuel : Nat} {now : UInt64} {db db' : Db} {b : Block}
  {txs : List Transaction} {weight : UInt64} {v : Verified} {adr : AccountPublicAddress}

theorem madeBy_iff : b.madeBy adr = true ↔ ∃ d, b.spinData? = some d ∧ d.nfo.adr = adr := by
  unfold Block.madeBy
  cases b.spinData? <;> simp

theorem viewKey_of_madeBy (h : b.madeBy adr = true) : b.viewKey = adr.viewPublicKey := by
  obtain ⟨d, hd, rfl⟩ := madeBy_iff.mp h
  unfold Block.viewKey
  rw [spinnerData_of_spinData? hd]

theorem startHeight_eq_latest (hd : ChainOk env.cfg db) {info : SpinnerInfo} {p : Nat}
    (hp : env.cfg.startAmountBlocks.toNat < p) (hl : latestOf db info.adr = some p)
    {r : SpinReads} (hrd : readChain env db fuel (db.height - 1) now info = .ok r) :
    ∃ (e : BlockEntry) (d : SpinnerData), db.entries[p]? = some e ∧ e.block.spinData? = some d ∧
      r.timeTo = e.block.timestamp + d.interval := by
  obtain ⟨e, he, ha⟩ := lastIndex_holds hl
  obtain ⟨q, hpq, hq, ht⟩ := startHeight_of_exact hd.index (by omega) he (viewKey_of_madeBy ha)
  have hn : (UInt64.ofNat q).toNat = q := Db.toNat_ofNat_of_lt hq
  obtain ⟨_, _, _, _, hc⟩ := readChain_eq_ok hrd
  rw [ht] at hc
  obtain ⟨_, b, d, locked, hr⟩ | ⟨hs, _⟩ := hc
  · have hb := hr.block
    rw [ht] at hb
    obtain ⟨e', he', rfl⟩ := Option.map_eq_some_iff.mp hb
    rw [Db.entryAt, hn] at he'
    have hqp : q = p := by
      by_contra hne
      have hf := lastIndex_last hl (by omega : p < q) he'
      rw [madeBy_iff.mpr ⟨d, hr.data, hr.own⟩] at hf
      cases hf
    subst hqp
    exact ⟨e', d, he', hr.data, hr.timeTo⟩
  · refine absurd ?_ hs
    rw [UInt64.lt_iff_toNat_lt]
    omega

/-- One accepted block: its spinner has waited, on the verifier's clock. -/
theorem Extends.waited (h : Extends env fuel now db b db' txs weight v)
    (hs : env.cfg.startAmountBlocks < db.height) (hb : ChainOk env.cfg db) {p : Nat}
    (hp : env.cfg.startAmountBlocks.toNat < p) (hl : latestOf db b.spinnerData.nfo.adr = some p) :
    ∃ (e : BlockEntry) (d : SpinnerData), db.entries[p]? = some e ∧ e.block.spinData? = some d ∧
      e.block.timestamp + d.interval ≤ now := by
  obtain ⟨d, locked, computed, timeTo, hd, _, hg, _⟩ := h.compared hs
  rw [spinnerData_of_spinData? hd] at hl
  obtain ⟨r, l, proofHeight, hr, ha, _, _, _⟩ := getSpinnerData_eq_ok (not_pred_lt hs) hg
  obtain ⟨e, d', he, hd', ht⟩ := startHeight_eq_latest hb hp hl hr
  exact ⟨e, d', he, hd', ht ▸ ha⟩

end

/-- A block above the start blocks is accepted no sooner, on the local clock, than the timestamp of
its spinner's latest block there plus the interval that block carries. -/
theorem spinner_waits_on_local_clock {env : Env} {fuel : Nat} {st₀ s t : Blockchain}
    {pre post : List Arrival} {a : Arrival} {p : Nat} (h₀ : st₀.db = Db.empty)
    (hrun : run (Blockchain.accept env fuel) st₀ (pre ++ a :: post) = some t)
    (hpre : run (Blockchain.accept env fuel) st₀ pre = some s)
    (hs : env.cfg.startAmountBlocks < s.db.height) (hp : env.cfg.startAmountBlocks.toNat < p)
    (hlatest : latestOf s.db a.block.spinnerData.nfo.adr = some p) :
    ∃ (e : BlockEntry) (d : SpinnerData), s.db.entries[p]? = some e ∧
      e.block.spinData? = some d ∧ e.block.timestamp + d.interval ≤ a.now := by
  obtain ⟨s', u, hs', hsp, _⟩ := run_split hrun
  rw [hpre] at hs'
  cases hs'
  obtain ⟨txs, weight, v, hx⟩ := accept_extends hsp
  exact hx.waited hs (run_chainOk h₀ hpre) hp hlatest

namespace Sample

def secondData : SpinnerData where
  nfo := { alice with prevuosHeight := 9 }
  approximatelyCount := 10
  locked := 125000000000000
  mediumLocked := 125000000000000
  spin := 3143
  mediumSpin := 2689
  interval := 112
  mediumInterval := 120

def secondArrival : Arrival := arrival (spinnerBlock 10 1081 39997658128197 secondData)

def latestAlice (s : Blockchain) : Option (Nat × UInt64 × UInt64) :=
  (latestOf s.db alice.adr).bind fun p => s.db.entries[p]?.map fun e =>
    (p, e.block.timestamp, e.block.spinnerData.interval)

theorem secondArrival_accepted : ∃ s t, run (Blockchain.accept (env config) 2) node (firstArrivals firstData) = some s ∧
      run (Blockchain.accept (env config) 2) node (firstArrivals firstData ++ [secondArrival]) = some t ∧
      s.db.height = 10 ∧ latestAlice s = some (9, 1080, 132) := by
  have hf : ((run (Blockchain.accept (env config) 2) node (firstArrivals firstData)).map
      fun s => (s.db.height, latestAlice s)) = some (10, some (9, 1080, 132)) := by decide +kernel
  have hse : (run (Blockchain.accept (env config) 2) node
      (firstArrivals firstData ++ [secondArrival])).isSome = true := by decide +kernel
  obtain ⟨s, hs, heq⟩ := Option.map_eq_some_iff.mp hf
  obtain ⟨t, ht⟩ := Option.isSome_iff_exists.mp hse
  exact ⟨s, t, hs, ht, congrArg Prod.fst heq, congrArg Prod.snd heq⟩

theorem latestOf_alice {s : Blockchain} {p : Nat} {ts interval : UInt64}
    (h : latestAlice s = some (p, ts, interval)) : latestOf s.db alice.adr = some p ∧
      ∃ e, s.db.entries[p]? = some e ∧ e.block.timestamp = ts ∧ e.block.spinnerData.interval = interval := by
  obtain ⟨q, hq, heq⟩ := Option.bind_eq_some_iff.mp h
  obtain ⟨e, he, heq⟩ := Option.map_eq_some_iff.mp heq
  cases heq
  exact ⟨hq, e, he, rfl, rfl⟩

theorem secondArrival_adr : secondArrival.block.spinnerData.nfo.adr = alice.adr := by
  decide +kernel

end Sample

open Sample in
theorem alice_waits_on_local_clock :
    ∃ s e d, run (Blockchain.accept (env config) 2) node (firstArrivals firstData) = some s ∧
      s.db.entries[9]? = some e ∧ e.block.spinData? = some d ∧
      e.block.timestamp + d.interval ≤ secondArrival.now := by
  obtain ⟨s, t, hs, ht, hh, hl⟩ := secondArrival_accepted
  obtain ⟨hl, _⟩ := latestOf_alice hl
  rw [← secondArrival_adr] at hl
  obtain ⟨e, d, he, hd, hle⟩ := @spinner_waits_on_local_clock (env config) 2 node s t
    (firstArrivals firstData) [] secondArrival 9 rfl ht hs (by rw [hh]; decide) (by decide) hl
  exact ⟨s, e, d, hs, he, hd, hle⟩

open Sample in
/-- Alice's second block has a timestamp one second after the first, whose interval is 132. -/
theorem interval_not_enforced_on_timestamps :
    ¬ ∀ (env : Env) (fuel : Nat) (st₀ s t : Blockchain) (pre post : List Arrival) (a : Arrival)
      (p : Nat) (e : BlockEntry), st₀.db = Db.empty →
      run (Blockchain.accept env fuel) st₀ (pre ++ a :: post) = some t →
      run (Blockchain.accept env fuel) st₀ pre = some s → env.cfg.startAmountBlocks < s.db.height →
      env.cfg.startAmountBlocks.toNat < p → latestOf s.db a.block.spinnerData.nfo.adr = some p →
      s.db.entries[p]? = some e →
      e.block.timestamp.toNat + e.block.spinnerData.interval.toNat ≤ a.block.timestamp.toNat := by
  intro h
  obtain ⟨s, t, hs, ht, hh, hl⟩ := secondArrival_accepted
  obtain ⟨hl, e, he, hts, hi⟩ := latestOf_alice hl
  rw [← secondArrival_adr] at hl
  have hle := h (env config) 2 node s t (firstArrivals firstData) [] secondArrival 9 e rfl ht hs
    (by rw [hh]; decide) (by decide) hl he
  rw [hts, hi] at hle
  revert hle
  decide

end Gyro
