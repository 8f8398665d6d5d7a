import Gyro.Divisors

/-!
# The elapsed times of `get_spinner_data`

A block may be older than its predecessor, and the unsigned differences of timestamps
then wrap. They are exact where timestamps never go back, above the start blocks.
-/

namespace Gyro

open Runs List

def ExactElapsed (til since added : UInt64) : Prop :=
  ((til - since + added).toNat : Int) = til.toNat - since.toNat + added.toNat

theorem exactElapsed_of_le {til since added : UInt64} (hle : since ≤ til)
    (hf : til.toNat + added.toNat < 2 ^ 64) : ExactElapsed til since added := by
  have hs : (til - since).toNat = til.toNat - since.toNat := UInt64.toNat_sub_of_le _ _ hle
  have hle' : since.toNat ≤ til.toNat := UInt64.le_iff_toNat_le.mp hle
  unfold ExactElapsed
  rw [UInt64.toNat_add, hs]
  omega

structure ElapsedExact (env : Env) (db : Db) (info : SpinnerInfo) : Prop where
  /-- Since the block before the spinner's latest one. -/
  beforeLatest : ∀ b d ts, env.cfg.startAmountBlocks < startHeight db info →
    db.getBlockFromHeight (startHeight db info) = some b → b.spinData? = some d →
    env.cfg.startAmountBlocks < d.nfo.prevuosHeight →
    db.getBlockTimestamp d.nfo.prevuosHeight = some ts → ExactElapsed (tipTimestamp env.cfg db) ts 0
  /-- Since the latest one, when it is the spinner's first. -/
  latest : ∀ b d, env.cfg.startAmountBlocks < startHeight db info →
    db.getBlockFromHeight (startHeight db info) = some b → b.spinData? = some d →
    ¬ env.cfg.startAmountBlocks < d.nfo.prevuosHeight → startHeight db info < db.height - 1 →
    ExactElapsed (tipTimestamp env.cfg db) b.timestamp 0
  /-- In the damping. -/
  damping : ∀ fuel now r, readChain env db fuel (db.height - 1) now info = .ok r →
    ExactElapsed r.prevTimestamp r.spinTimestamp env.cfg.durationTarget

/-- No block is older than one below it, and the clock stays away from 2^64. -/
structure ForwardTimes (cfg : Config) (ts : List UInt64) : Prop where
  ordered : ts.Pairwise (· ≤ ·)
  fits : ∀ t ∈ ts, t.toNat + cfg.durationTarget.toNat < 2 ^ 64

def timestamps (db : Db) : List UInt64 := db.entries.map (·.block.timestamp)

section
variable {env : Env} {fuel : Nat} {st st' : Blockchain} {db : Db} {info : SpinnerInfo}

theorem run_timestamps {as : List Arrival} (h : run (Blockchain.accept env fuel) st as = some st') :
    timestamps st'.db = timestamps st.db ++ as.map (·.block.timestamp) := by
  simpa [timestamps, Function.comp_def] using congrArg (List.map (·.timestamp)) (run_accept_blocks h)

theorem getElem?_timestamps {h ts : UInt64} (ht : db.getBlockTimestamp h = some ts) :
    (timestamps db)[h.toNat]? = some ts := by
  rw [timestamps, List.getElem?_map]
  exact ht

theorem timestamp_of_block {h : UInt64} {b : Block} (hb : db.getBlockFromHeight h = some b) :
    db.getBlockTimestamp h = some b.timestamp := by
  obtain ⟨e, he, rfl⟩ := Option.map_eq_some_iff.mp hb
  simp [Db.getBlockTimestamp, he]

section
variable (h : ForwardTimes env.cfg (timestamps db))
include h

theorem ForwardTimes.le_tip {height ts : UInt64}
    (ha : env.cfg.startAmountBlocks < db.height - 1) (ht : db.getBlockTimestamp height = some ts) :
    ts ≤ tipTimestamp env.cfg db ∧ (tipTimestamp env.cfg db).toNat + env.cfg.durationTarget.toNat < 2 ^ 64 := by
  have hat := getElem?_timestamps ht
  obtain ⟨hlt, rfl⟩ := List.getElem?_eq_some_iff.mp hat
  have hlen : (timestamps db).length = db.entries.length := length_map _
  have hp := Db.height_pred_toNat (by omega : 0 < db.entries.length)
  have hl : db.entries.length - 1 < (timestamps db).length := by omega
  have hi : tipTimestamp env.cfg db = (timestamps db)[db.entries.length - 1] := by
    have hn : db.entries.length - 1 < db.entries.length := by omega
    unfold tipTimestamp
    rw [if_pos ha, Db.getBlockTimestamp, Db.entryAt, hp, List.getElem?_eq_getElem hn]
    simp [timestamps]
  rw [hi]
  refine ⟨?_, h.fits _ (getElem_mem hl)⟩
  obtain hl' | heq := Nat.lt_or_eq_of_le (by omega : height.toNat ≤ db.entries.length - 1)
  · exact pairwise_iff_getElem.mp h.ordered _ _ _ _ hl'
  · simp only [heq]
    exact UInt64.le_refl _

theorem ForwardTimes.exact {height ts added : UInt64}
    (ha : env.cfg.startAmountBlocks < db.height - 1) (ht : db.getBlockTimestamp height = some ts)
    (hd : added ≤ env.cfg.durationTarget) : ExactElapsed (tipTimestamp env.cfg db) ts added := by
  obtain ⟨hle, hf⟩ := h.le_tip ha ht
  have := UInt64.le_iff_toNat_le.mp hd
  exact exactElapsed_of_le hle (by omega)

theorem ForwardTimes.elapsedExact (ha : env.cfg.startAmountBlocks < db.height - 1) : ElapsedExact env db info where
  beforeLatest b d ts _ _ _ _ hs := h.exact ha hs (UInt64.zero_le)
  latest b d _ hb _ _ _ := h.exact ha (timestamp_of_block hb) (UInt64.zero_le)
  damping fuel now r hd := by
    obtain ⟨_, _, _, ht, ⟨_, b, d, locked, hr⟩ | ⟨_, proofHeight, hr⟩⟩ := readChain_eq_ok hd
    · rw [ht, hr.spinTimestamp]
      exact h.exact ha (timestamp_of_block hr.block) (UInt64.le_refl _)
    · rw [ht]
      exact h.exact ha hr.spinTimestamp (UInt64.le_refl _)

end

theorem elapsedExact_at_start (hs : db.height - 1 = env.cfg.startAmountBlocks)
    (ho : ∀ proofHeight ts, db.getTxBlockHeight info.proof.txid = some proofHeight →
      db.getBlockTimestamp proofHeight = some ts → ts ≤ env.cfg.durationTarget) : ElapsedExact env db info := by
  have hn : ∀ b, env.cfg.startAmountBlocks < startHeight db info →
      db.getBlockFromHeight (startHeight db info) ≠ some b := by
    intro b hl hb
    obtain ⟨ha, _⟩ := List.getElem?_eq_some_iff.mp (getElem?_timestamps (timestamp_of_block hb))
    rw [timestamps, length_map] at ha
    rw [← hs, UInt64.lt_iff_toNat_lt, Db.height_pred_toNat (by omega)] at hl
    omega
  refine ⟨fun b d ts hl hb => absurd hb (hn b hl), fun b d hl hb => absurd hb (hn b hl), ?_⟩
  intro fuel now r hd
  obtain ⟨_, _, _, ht, ⟨hl, b, d, locked, hr⟩ | ⟨_, proofHeight, hr⟩⟩ := readChain_eq_ok hd
  · exact absurd hr.block (hn b hl)
  · have hle := ho proofHeight _ hr.proof hr.spinTimestamp
    have hzero : r.prevTimestamp = 0 := by
      rw [ht, tipTimestamp, if_neg (by rw [hs]; exact UInt64.lt_irrefl _)]
    have hu : 0 - r.spinTimestamp + env.cfg.durationTarget =
        env.cfg.durationTarget - r.spinTimestamp := by grind
    have hle' := UInt64.le_iff_toNat_le.mp hle
    unfold ExactElapsed
    rw [hzero, hu, UInt64.toNat_sub_of_le _ _ hle]
    change _ = ((0 : Nat) : Int) - _ + _
    omega

/-- Where timestamps never go back the elapsed times are exact once the tip is above the start
blocks, and at the last start block for a lock as old as the epoch. -/
theorem elapsed_times_exact {as : List Arrival} (h₀ : st.db = Db.empty)
    (hrun : run (Blockchain.accept env fuel) st as = some st')
    (htimes : ForwardTimes env.cfg (as.map (·.block.timestamp))) (info : SpinnerInfo)
    (hpast : ¬ st'.db.height - 1 < env.cfg.startAmountBlocks) (hlock : env.cfg.startAmountBlocks < st'.db.height - 1 ∨
      ∀ proofHeight ts, st'.db.getTxBlockHeight info.proof.txid = some proofHeight →
        st'.db.getBlockTimestamp proofHeight = some ts → ts ≤ env.cfg.durationTarget) :
    ElapsedExact env st'.db info := by
  by_cases ha : env.cfg.startAmountBlocks < st'.db.height - 1
  · have hc : timestamps st'.db = as.map (·.block.timestamp) := by
      rw [run_timestamps hrun, h₀]
      rfl
    rw [← hc] at htimes
    exact htimes.elapsedExact ha
  · obtain ho | hlock := hlock
    · exact absurd ho ha
    · apply elapsedExact_at_start _ hlock
      exact UInt64.le_antisymm (UInt64.not_lt.mp ha) (UInt64.not_lt.mp hpast)

end

namespace Sample

def hastyBlock : Block := spinnerBlock 101 19000 39997744859481 defaultData

def steadyBlock : Block := spinnerBlock 102 12240 39997658128197
  { defaultData with
    nfo := { alice with prevuosHeight := 101 }, spin := 888, mediumSpin := 760, interval := 112 }

theorem steadyBlock_names : steadyBlock.spinnerData.nfo.prevuosHeight = 101 := by
  decide +kernel

theorem timestamps_every_two_minutes : (startArrivals Config.default ++ [arrival (defaultBlock defaultData)]).map
    (·.block.timestamp) = (List.range 102).map fun h => 120 * UInt64.ofNat h := by
  rw [startArrivals]
  rfl

theorem forwardTimes_start : ForwardTimes Config.default
    ((startArrivals Config.default ++ [arrival (defaultBlock defaultData)]).map (·.block.timestamp)) := by
  have hn : ∀ h < 102, (120 * UInt64.ofNat h).toNat = 120 * h := by
    intro h hl
    rw [UInt64.toNat_mul, UInt64.toNat_ofNat_of_lt' (by unfold UInt64.size; omega)]
    exact Nat.mod_eq_of_lt (by change 120 * h < _; omega)
  rw [timestamps_every_two_minutes]
  constructor
  · rw [pairwise_map]
    refine pairwise_lt_range.imp_of_mem fun ha hb hl => ?_
    rw [UInt64.le_iff_toNat_le, hn _ (mem_range.mp ha), hn _ (mem_range.mp hb)]
    omega
  · intro t ht
    obtain ⟨h, hh, rfl⟩ := mem_map.mp ht
    have := mem_range.mp hh
    rw [hn h this, show Config.default.durationTarget.toNat = 120 from rfl]
    omega

end Sample

open Sample in
theorem elapsed_times_exact_after_first_block : ∃ t, run (Blockchain.accept (env Config.default) 2) node
        (startArrivals Config.default ++ [arrival (defaultBlock defaultData)]) = some t ∧
      ElapsedExact (env Config.default) t.db alice := by
  obtain ⟨t, hr⟩ := defaultRun_accepted
  have ha : Config.default.startAmountBlocks < t.db.height - 1 := by
    have hlen : t.db.entries.length = 102 := by
      rw [run_length hr]
      simp [startArrivals, Config.default, node, Db.empty]
    exact lt_height_pred (by decide : 100 < 101) (by omega)
  exact ⟨t, hr, elapsed_times_exact rfl hr forwardTimes_start alice
    (UInt64.not_lt.mpr (UInt64.le_of_lt ha)) (.inl ha)⟩

open Sample in
/-- A block two hours ahead is accepted, and so is the next one with a good clock. -/
theorem elapsed_time_wraps :
    ¬ ∀ (env : Env) (fuel : Nat) (st s : Blockchain) (as : List Arrival) (info : SpinnerInfo),
      env.cfg = Config.default → st.db = Db.empty → run (Blockchain.accept env fuel) st as = some s →
      ¬ s.db.height - 1 < env.cfg.startAmountBlocks → ElapsedExact env s.db info := by
  intro h
  have hv : ((run (Blockchain.accept (env Config.default) 2) node
      (startArrivals Config.default ++ [arrival hastyBlock, arrival steadyBlock])).map fun s =>
        (s.db.height, startHeight s.db alice, s.db.getBlockFromHeight 102, s.db.getBlockTimestamp 101,
          tipTimestamp Config.default s.db)) =
      some (103, 102, some steadyBlock, some 19000, 12240) := by
    decide +kernel
  obtain ⟨s, hs, heq⟩ := Option.map_eq_some_iff.mp hv
  simp only [Prod.mk.injEq] at heq
  obtain ⟨hh, ht, hb, hts, hi⟩ := heq
  have hx := h (env Config.default) 2 node s _ alice rfl rfl hs (by rw [hh]; decide)
  have hr := hx.beforeLatest steadyBlock steadyBlock.spinnerData 19000 (by rw [ht]; decide)
    (by rw [ht]; exact hb) (by decide +kernel) (by decide +kernel)
    (by rw [steadyBlock_names]; exact hts)
  change ExactElapsed (tipTimestamp Config.default s.db) 19000 0 at hr
  rw [hi] at hr
  revert hr
  unfold ExactElapsed
  decide

end Gyro
