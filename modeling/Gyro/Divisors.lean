import Gyro.Accept

/-!
# The divisions of `get_spinner_data`

Some divisors are made of what the tip carries and of timestamps. They stay away from
zero on every chain whose blocks carry counts that neither are zero nor wrap, name
earlier heights, and leave every spinner a mean interval.
-/

namespace Gyro

open Runs Exits LastIndex List

section
variable (cfg : Config) (below : List Block) (b : Block)

def elapsedSince (p : Nat) (P : Block) : UInt64 :=
  let height := UInt64.ofNat below.length
  let prevuosHeight := P.spinnerData.nfo.prevuosHeight
  if cfg.startAmountBlocks < prevuosHeight then
    (b.timestamp - ((below ++ [b])[prevuosHeight.toNat]?.map (·.timestamp)).getD 0) /
      (height - prevuosHeight)
  else if p < below.length then (b.timestamp - P.timestamp) / (height - UInt64.ofNat p)
  else b.spinnerData.mediumInterval

def intervalWeight : UInt64 :=
  1 + 2 * cfg.spinnerCountPrecision / b.spinnerData.approximatelyCount

structure SoundBlock : Prop where
  count : b.spinnerData.approximatelyCount ≠ 0
  countSum : 0 < b.spinnerData.mediumLocked ∨ 0 < b.spinnerData.mediumSpin →
    b.spinnerData.approximatelyCount + cfg.spinnerCountPrecision ≠ 0
  /-- It names a height below its own. -/
  prevuosHeight : cfg.startAmountBlocks < b.spinnerData.nfo.prevuosHeight →
    b.spinnerData.nfo.prevuosHeight.toNat < below.length
  /-- The mean interval does not round to zero for the spinner of any latest block. -/
  interval : ∀ (p : Nat) (P : Block), (below ++ [b])[p]? = some P →
    cfg.startAmountBlocks.toNat < p →
    (∀ (q : Nat) (Q : Block), p < q → (below ++ [b])[q]? = some Q → Q.viewKey ≠ P.viewKey) →
    intervalWeight cfg b + 1 ≤
      b.spinnerData.mediumInterval * intervalWeight cfg b + elapsedSince cfg below b p P

end

def SoundChain (cfg : Config) (db : Db) : Prop :=
  ∀ (i : Nat) (e : BlockEntry), db.entries[i]? = some e → cfg.startAmountBlocks.toNat < i →
    SoundBlock cfg ((db.entries.take i).map (·.block)) e.block

abbrev NoDivision {α : Type} (x : Except Stop α) : Prop := FailsOnly (· ≠ .fault .divisionByZero) x

section
variable {cfg : Config} {r : SpinReads} {locked proofHeight : UInt64} {info : SpinnerInfo}

theorem div64_noDivision {a b : UInt64} (hb : b ≠ 0) : NoDivision (div64 a b) := by
  unfold div64
  rw [if_neg hb]
  exact failsOnly_ok _

theorem div128_noDivision {a b : BitVec 128} (hb : b ≠ 0) : NoDivision (div128 a b) := by
  unfold div128
  rw [if_neg hb]
  exact failsOnly_ok _

theorem wide_ne_zero {x : UInt64} (hx : x ≠ 0) : wide x ≠ 0 := by
  intro hzero
  apply hx
  have hn := congrArg BitVec.toNat hzero
  unfold wide at hn
  rw [BitVec.toNat_setWidth, Nat.mod_eq_of_lt (by omega)] at hn
  exact UInt64.toNat_inj.mp hn

theorem spin_succ_ne_zero {spin : UInt64} (h : spin.toNat * 1000000 < 2 ^ 64) : spin + 1 ≠ 0 := by
  intro hzero
  have hn := congrArg UInt64.toNat hzero
  change (spin.toNat + 1) % 2 ^ 64 = 0 at hn
  omega

theorem computeSpin_noDivision : NoDivision (computeSpin Config.default r locked) := by
  refine (div128_noDivision (by decide)).bind fun dampA _ => ?_
  refine FailsOnly.bind ?_ fun _ _ => failsOnly_ok _
  exact FailsOnly.ite (fun _ => div128_noDivision (by decide)) (fun _ => failsOnly_ok _)

theorem runningMean_noDivision {prevMean count x : UInt64}
    (h : 0 < prevMean → count + cfg.spinnerCountPrecision ≠ 0) : NoDivision (runningMean cfg prevMean count x) := by
  refine FailsOnly.ite (fun hp => ?_) (fun _ => failsOnly_ok _)
  exact (div128_noDivision (wide_ne_zero (h hp))).bind fun _ _ => failsOnly_ok _

theorem computeInterval_noDivision {count spin mediumSpin mediumInterval : UInt64}
    (hs : spin + 1 ≠ 0) (hme : mediumInterval ≠ 0) :
    NoDivision (computeInterval Config.default count spin mediumSpin mediumInterval) := by
  refine (div128_noDivision (wide_ne_zero hs)).bind fun _ _ => ?_
  refine (div128_noDivision (wide_ne_zero hme)).bind fun _ _ => ?_
  exact (div128_noDivision (by decide)).bind fun _ _ => failsOnly_ok _

theorem weight_succ_ne_zero (count : UInt64) : 1 + (20 : UInt64) / count + 1 ≠ 0 := by
  intro hzero
  have hn := congrArg UInt64.toNat hzero
  have hle : (20 : UInt64).toNat / count.toNat ≤ 20 := Nat.div_le_self _ _
  change ((1 + 20 / count.toNat) % 2 ^ 64 + 1) % 2 ^ 64 = 0 at hn
  change 20 / count.toNat ≤ 20 at hle
  generalize 20 / count.toNat = q at hn hle
  omega

theorem div_ne_zero_of_le {a b : UInt64} (hb : b ≠ 0) (hle : b ≤ a) : a / b ≠ 0 := by
  intro hzero
  have hn := congrArg UInt64.toNat hzero
  have hp : 0 < b.toNat := by
    rw [Nat.pos_iff_ne_zero]
    intro h0
    exact hb (UInt64.toNat_inj.mp h0)
  have hq : 0 < a.toNat / b.toNat := Nat.div_pos (UInt64.le_iff_toNat_le.mp hle) hp
  change a.toNat / b.toNat = 0 at hn
  omega

theorem computeMediumInterval_noDivision {cfg : Config} (hc : cfg = Config.default)
    (hn : cfg.startAmountBlocks < r.prevuosHeight → r.prevData.approximatelyCount ≠ 0) :
    NoDivision (computeMediumInterval cfg r) := by
  subst hc
  refine FailsOnly.ite (fun hs => ?_) (fun _ => failsOnly_ok _)
  refine (div64_noDivision (hn hs)).bind fun q hq => ?_
  rw [(div64_eq_ok hq).2]
  exact div64_noDivision (weight_succ_ne_zero _)

theorem computeMediumInterval_ne_zero {mean : UInt64} (h : computeMediumInterval cfg r = .ok mean)
    (hr : cfg.startAmountBlocks < r.prevuosHeight →
      1 + 2 * cfg.spinnerCountPrecision / r.prevData.approximatelyCount + 1 ≤ r.prevData.mediumInterval *
          (1 + 2 * cfg.spinnerCountPrecision / r.prevData.approximatelyCount) + r.mediumInterval)
    (hf : ¬ cfg.startAmountBlocks < r.prevuosHeight → r.mediumInterval ≠ 0) : mean ≠ 0 := by
  unfold computeMediumInterval at h
  split at h
  · rename_i hs
    obtain ⟨q, hq, h⟩ := bind_eq_ok.mp h
    obtain ⟨_, rfl⟩ := div64_eq_ok hq
    obtain ⟨hn, rfl⟩ := div64_eq_ok h
    exact div_ne_zero_of_le hn (hr hs)
  · rename_i hs
    cases h
    exact hf hs

/-- What the reads have to give the computation for it never to divide by zero. -/
structure SafeReads (cfg : Config) (r : SpinReads) : Prop where
  spin : r.prevSpin.spin + 1 ≠ 0
  countSum : 0 < r.prevData.mediumLocked ∨ 0 < r.prevData.mediumSpin →
    r.prevData.approximatelyCount + cfg.spinnerCountPrecision ≠ 0
  count : cfg.startAmountBlocks < r.prevuosHeight → r.prevData.approximatelyCount ≠ 0
  returning : cfg.startAmountBlocks < r.prevuosHeight →
    1 + 2 * cfg.spinnerCountPrecision / r.prevData.approximatelyCount + 1 ≤
      r.prevData.mediumInterval *
        (1 + 2 * cfg.spinnerCountPrecision / r.prevData.approximatelyCount) + r.mediumInterval
  first : ¬ cfg.startAmountBlocks < r.prevuosHeight → r.mediumInterval ≠ 0

theorem computeData_noDivision (hc : cfg = Config.default) (h : SafeReads cfg r) :
    NoDivision (computeData cfg r info locked proofHeight) := by
  subst hc
  refine FailsOnly.bind ((div64_noDivision h.spin).bind fun _ _ => failsOnly_ok _) fun driving _ => ?_
  refine computeSpin_noDivision.bind fun spin hs => ?_
  refine (runningMean_noDivision fun hp => h.countSum (.inl hp)).bind fun mediumLocked _ => ?_
  refine (runningMean_noDivision fun hp => h.countSum (.inr hp)).bind fun mediumSpin _ => ?_
  refine (computeMediumInterval_noDivision rfl h.count).bind fun mean hme => ?_
  have hn := computeMediumInterval_ne_zero hme h.returning h.first
  have hu := spin_succ_ne_zero (computeSpin_lt hs)
  exact (computeInterval_noDivision hu hn).bind fun _ _ => failsOnly_ok _

end

section
variable {env : Env} {db : Db} {info : SpinnerInfo} {fuel : Nat} {now : UInt64} {r : SpinReads}

theorem lockedWalk_noDivision {adr : AccountPublicAddress} {tx : Transaction}
    {amounts : List UInt64} : lockedWalk env db adr fuel tx amounts ≠ .error .divisionByZero := by
  induction fuel generalizing tx amounts with
  | zero => simp [lockedWalk]
  | succ fuel ih =>
    unfold lockedWalk
    split
    · simp
    · split
      · simp
      · split
        · simp
        · exact ih

theorem requireLocked_noDivision {nfo : SpinnerInfo} {timeTo : UInt64} :
    NoDivision (requireLocked env db fuel nfo timeTo) := by
  unfold requireLocked
  split
  · rename_i f hf
    refine failsOnly_error ?_
    intro heq
    cases heq
    unfold calcSpinnerTransactionLocked at hf
    split at hf
    · cases hf
    · obtain ha | ⟨_, _, hr⟩ := bind_eq_error.mp hf
      · exact lockedWalk_noDivision ha
      · cases hr
  · exact failsOnly_error (by simp)
  · exact failsOnly_ok _

theorem SoundChain.tip (ho : SoundChain env.cfg db)
    (hs : env.cfg.startAmountBlocks < db.height - 1) (hne : db.entries ≠ []) :
    ∃ rest e, db.entries = rest ++ [e] ∧ db.height - 1 = UInt64.ofNat rest.length ∧
      rest.length < 2 ^ 64 ∧ SoundBlock env.cfg (rest.map (·.block)) e.block ∧
      tipData env.cfg db = e.block.spinnerData ∧ tipTimestamp env.cfg db = e.block.timestamp := by
  obtain ⟨rest, e, hn⟩ : ∃ rest e, db.entries = rest ++ [e] :=
    ⟨_, _, (dropLast_append_getLast hne).symm⟩
  have hlen : db.entries.length = rest.length + 1 := by simp [hn]
  have hl : rest.length < 2 ^ 64 := by
    have := db.bounded
    omega
  have hh : db.height - 1 = UInt64.ofNat rest.length := by
    unfold Db.height
    rw [hlen, UInt64.ofNat_add]
    grind
  have ha : (UInt64.ofNat rest.length).toNat = rest.length := UInt64.toNat_ofNat_of_lt' hl
  have ht : db.entryAt (db.height - 1) = some e := by
    unfold Db.entryAt
    rw [hh, ha, hn, List.getElem?_concat_length]
  refine ⟨rest, e, hn, hh, hl, ?_, ?_, ?_⟩
  · have hb := ho rest.length e (by rw [hn, List.getElem?_concat_length]) (by
      rw [hh, UInt64.lt_iff_toNat_lt, ha] at hs
      exact hs)
    rw [hn, take_left] at hb
    exact hb
  · unfold tipData
    rw [if_pos hs]
    simp [Db.getBlockFromHeight, ht]
  · unfold tipTimestamp
    rw [if_pos hs]
    simp [Db.getBlockTimestamp, ht]

variable {b : Block}

theorem searched_is_latest (hdb : ChainOk env.cfg db) {d : SpinnerData}
    (hb : db.getBlockFromHeight (startHeight db info) = some b) (hd : b.spinData? = some d)
    (ha : d.nfo.adr = info.adr) : ∃ e, db.entries[(startHeight db info).toNat]? = some e ∧ e.block = b ∧
      ∀ (q : Nat) (e' : BlockEntry), (startHeight db info).toNat < q → db.entries[q]? = some e' →
        e'.block.viewKey ≠ b.viewKey := by
  obtain ⟨e, he, rfl⟩ := Option.map_eq_some_iff.mp hb
  have hk : e.block.viewKey = info.adr.viewPublicKey := by
    unfold Block.viewKey
    rw [spinnerData_of_spinData? hd, ha]
  refine ⟨e, he, rfl, ?_⟩
  intro q e' hq he' hs
  obtain ⟨q', hle, hl, ht⟩ := startHeight_of_exact hdb.index (by omega) he' (hs.trans hk)
  have hn : (startHeight db info).toNat = q' := by
    rw [ht]
    exact Db.toNat_ofNat_of_lt hl
  omega

theorem sub_ne_zero_of_lt {a b : UInt64} (h : b < a) : a - b ≠ 0 := by
  grind

variable {height prevuosHeight : UInt64}

theorem searchPrevuos_noDivision {prevuosHeight : UInt64} :
    NoDivision (searchPrevuos db info prevuosHeight now fuel) := by
  induction fuel with
  | zero => exact failsOnly_error (by simp)
  | succ fuel ih =>
    unfold searchPrevuos
    split
    · exact failsOnly_error (by simp)
    · split
      · exact failsOnly_error (by simp)
      · exact FailsOnly.ite (fun _ => failsOnly_ok _) (fun _ => ih)

theorem lt_height_pred {p : Nat} {x : UInt64} (hx : x.toNat < p) (hp : p < db.entries.length) : x < db.height - 1 := by
  rw [UInt64.lt_iff_toNat_lt, Db.height_pred_toNat (by omega)]
  omega

theorem SoundChain.prevuos_lt (ho : SoundChain env.cfg db) {i : Nat} {e : BlockEntry}
    (he : db.entries[i]? = some e) (hi : env.cfg.startAmountBlocks.toNat < i)
    (hs : env.cfg.startAmountBlocks < e.block.spinnerData.nfo.prevuosHeight) :
    e.block.spinnerData.nfo.prevuosHeight < db.height - 1 := by
  have hl := (ho i e he hi).prevuosHeight hs
  have hlen : i < db.entries.length := (List.getElem?_eq_some_iff.mp he).1
  rw [length_map, length_take] at hl
  exact lt_height_pred (Nat.lt_of_lt_of_le hl (Nat.min_le_left _ _)) hlen

theorem readChain_noDivision (hdb : ChainOk env.cfg db) (ho : SoundChain env.cfg db) :
    NoDivision (readChain env db fuel (db.height - 1) now info) := by
  have hm := @missing_ne .divisionByZero (by simp)
  refine (readTip_failsOnly hm _).bind fun tip ht => ?_
  refine FailsOnly.ite (fun hs => ?_) (fun _ => readFirst_failsOnly hm _ _ _)
  refine searchPrevuos_noDivision.bind ?_
  rintro ⟨d, ts⟩ ha
  obtain ⟨b, hb, hd, _, had⟩ := searchPrevuos_eq_ok ha
  refine FailsOnly.bind ?_ fun _ _ => requireLocked_noDivision.bind fun _ _ => failsOnly_ok _
  refine elapsedInterval_failsOnly hm (fun hp _ => div64_noDivision (sub_ne_zero_of_lt ?_))
    (fun hl _ => div64_noDivision (sub_ne_zero_of_lt hl)) _ _
  obtain ⟨e, he, rfl, _⟩ := searched_is_latest hdb hb hd had
  rw [← spinnerData_of_spinData? hd] at hp ⊢
  exact ho.prevuos_lt he (UInt64.lt_iff_toNat_lt.mp hs) hp

theorem ReturningReads.elapsed_eq {d : SpinnerData} {locked : UInt64}
    (h : ReturningReads env db fuel info r b d locked) {rest : List BlockEntry} {e : BlockEntry}
    (hn : db.entries = rest ++ [e]) (hh : db.height - 1 = UInt64.ofNat rest.length)
    (hlen : rest.length < 2 ^ 64) (hi : tipData env.cfg db = e.block.spinnerData)
    (hts : tipTimestamp env.cfg db = e.block.timestamp) : r.mediumInterval =
      elapsedSince env.cfg (rest.map (·.block)) e.block (startHeight db info).toNat b := by
  have hb : rest.map (·.block) ++ [e.block] = db.entries.map (·.block) := by
    rw [hn, map_append, map_singleton]
  have hp : startHeight db info < db.height - 1 ↔ (startHeight db info).toNat < rest.length := by
    rw [hh, UInt64.lt_iff_toNat_lt, UInt64.toNat_ofNat_of_lt' hlen]
  have hl := h.elapsed
  unfold elapsedInterval at hl
  unfold elapsedSince
  rw [spinnerData_of_spinData? h.data, hb, length_map, ← hh, UInt64.ofNat_toNat]
  split at hl
  · rename_i hs
    rw [if_pos hs]
    split at hl
    · cases hl
    · rename_i timestamp htm
      obtain ⟨e', he', rfl⟩ := Option.map_eq_some_iff.mp htm
      rw [Db.entryAt] at he'
      rw [(div64_eq_ok hl).2, hts, List.getElem?_map, he']
      rfl
  · rename_i hs
    rw [if_neg hs]
    split at hl
    · rename_i ht
      rw [if_pos (hp.mp ht), (div64_eq_ok hl).2, hts]
    · rename_i ht
      injection hl with hl
      rw [if_neg (mt hp.mpr ht), ← hl, hi]

theorem SoundChain.countSum (ho : SoundChain env.cfg db)
    (hp : 0 < (tipData env.cfg db).mediumLocked ∨ 0 < (tipData env.cfg db).mediumSpin) :
    (tipData env.cfg db).approximatelyCount + env.cfg.spinnerCountPrecision ≠ 0 := by
  by_cases hs : env.cfg.startAmountBlocks < db.height - 1
  · by_cases hn : db.entries = []
    · have hzero : tipData env.cfg db = SpinnerData.zero := by
        unfold tipData
        simp [Db.getBlockFromHeight, Db.entryAt, hn]
      rw [hzero] at hp
      exact absurd hp (by decide)
    · obtain ⟨rest, e, _, _, _, hb, ht, _⟩ := ho.tip hs hn
      rw [ht] at hp ⊢
      exact hb.countSum hp
  · have hzero : tipData env.cfg db = SpinnerData.zero := if_neg hs
    rw [hzero] at hp
    exact absurd hp (by decide)

theorem readChain_safe (hcf : env.cfg = Config.default) (hb : ChainOk env.cfg db) (ho : SoundChain env.cfg db)
    (hrd : readChain env db fuel (db.height - 1) now info = .ok r) : SafeReads env.cfg r := by
  obtain ⟨_, hpr, hd, _, ha⟩ := readChain_eq_ok hrd
  have hc := ho.countSum
  rw [← hd] at hc
  obtain ⟨hs, b, d, locked, hr⟩ | ⟨hs, proofHeight, hf⟩ := ha
  · obtain ⟨e, he, rfl, hla⟩ := searched_is_latest hb hr.block hr.data hr.own
    have hlen : (startHeight db info).toNat < db.entries.length := (List.getElem?_eq_some_iff.mp he).1
    have hp := UInt64.lt_iff_toNat_lt.mp hs
    have hne : db.entries ≠ [] := ne_nil_of_length_pos (by omega)
    obtain ⟨rest, tip, hn, hh, hrs, hl, ht, hts⟩ :=
      ho.tip (lt_height_pred hp hlen) hne
    obtain ⟨d', hd', hsp⟩ := hb.carries _ e he hp
    have hdd : d = d' := Option.some.inj (hr.data.symm.trans hd')
    subst hdd
    have hbc : rest.map (·.block) ++ [tip.block] = db.entries.map (·.block) := by
      rw [hn, map_append, map_singleton]
    have hi := hl.interval (startHeight db info).toNat e.block
      (by rw [hbc, List.getElem?_map, he]; rfl) hp (by
        intro q Q hq hQ
        rw [hbc, List.getElem?_map] at hQ
        obtain ⟨e', he', rfl⟩ := Option.map_eq_some_iff.mp hQ
        exact hla q e' hq he')
    rw [← hr.elapsed_eq hn hh hrs ht hts] at hi
    unfold intervalWeight at hi
    rw [← ht, ← hd] at hi
    refine ⟨?_, hc, ?_, ?_, ?_⟩
    · rw [hr.prevSpin]
      exact spin_succ_ne_zero hsp
    · intro _
      rw [hd, ht]
      exact hl.count
    · intro _
      exact hi
    · intro hnot
      rw [hpr] at hnot
      exact absurd hs hnot
  · rw [← hpr] at hs
    refine ⟨?_, hc, fun h => absurd h hs, fun h => absurd h hs, ?_⟩
    · rw [hf.prevSpin]
      decide
    · intro _
      rw [hf.interval, hcf]
      decide

theorem getSpinnerData_noDivision (hc : env.cfg = Config.default) (hd : ChainOk env.cfg db)
    (hs : SoundChain env.cfg db) {res : SpinnerData} {timeTo : UInt64} :
    NoDivision (getSpinnerData env fuel now db info res timeTo) := by
  apply getSpinnerData_failsOnly (missing_ne (by simp)) (readChain_noDivision hd hs) fun _ => requireLocked_noDivision
  intro r _ _ hr
  exact computeData_noDivision hc (readChain_safe hc hd hs hr)

theorem Extends.soundChain {db' : Db} {txs : List Transaction} {weight : UInt64}
    {v : Verified} (h : Extends env fuel now db b db' txs weight v) (hs : SoundChain env.cfg db)
    (hb : env.cfg.startAmountBlocks < db.height →
      SoundBlock env.cfg (db.entries.map (·.block)) b) : SoundChain env.cfg db' := by
  intro i e he hi
  rw [h.entries] at he ⊢
  obtain ⟨hl, he⟩ | ⟨rfl, rfl⟩ := getElem?_concat_cases he
  · rw [take_append_of_le_length (Nat.le_of_lt hl)]
    exact hs i e he hi
  · rw [take_left]
    refine hb ?_
    rw [UInt64.lt_iff_toNat_lt, Db.height_toNat]
    exact hi

end

/-- With the built-in configuration no call of `get_spinner_data` divides by zero in any state that
a run of sound blocks reaches. -/
theorem no_division_by_zero {env : Env} {fuel : Nat} {st₀ s : Blockchain} {as : List Arrival}
    (hcfg : env.cfg = Config.default) (h₀ : st₀.db = Db.empty)
    (hrun : run (Blockchain.accept env fuel) st₀ as = some s) (hsteps : EveryStep (Blockchain.accept env fuel)
      (fun s a => env.cfg.startAmountBlocks < s.db.height →
        SoundBlock env.cfg (s.db.entries.map (·.block)) a.block) st₀ as)
    (fuel' : Nat) (now : UInt64) (info : SpinnerInfo) (res : SpinnerData) (timeTo : UInt64) :
    getSpinnerData env fuel' now s.db info res timeTo ≠ .error (.fault .divisionByZero) := by
  have ho : SoundChain env.cfg s.db := by
    refine run_invariant (I := fun s => SoundChain env.cfg s.db) ?_ ?_ hsteps hrun
    · intro s a t hs hb hse
      obtain ⟨txs, weight, v, hx⟩ := accept_extends hse
      exact hx.soundChain hs hb
    · intro i e he
      rw [h₀] at he
      cases he
  intro hzero
  exact getSpinnerData_noDivision hcfg (run_chainOk h₀ hrun) ho _ hzero rfl

namespace Sample

def defaultData : SpinnerData where
  nfo := alice
  approximatelyCount := 10
  locked := 10000000000000
  mediumLocked := 10000000000000
  spin := 632
  mediumSpin := 632
  interval := 132
  mediumInterval := 120

def zeroCountData : SpinnerData := { defaultData with approximatelyCount := 0 }

def defaultBlock (data : SpinnerData) : Block := spinnerBlock 101 12120 39997744859481 data

def faultAfter (s : Blockchain) (data : SpinnerData) : Option (Option Stop) :=
  (s.accept (env Config.default) 2 (arrival (defaultBlock data))).map fun t =>
    match getSpinnerData (env Config.default) 2 1000000 t.db alice SpinnerData.zero 0 with
    | .error stop => some stop
    | .ok _ => none

theorem defaultBlock_accepted :
    ∃ s, run (Blockchain.accept (env Config.default) 2) node (startArrivals Config.default) = some s ∧
      faultAfter s defaultData = some none ∧ faultAfter s zeroCountData = some (some (.fault .divisionByZero)) := by
  have hv : ((run (Blockchain.accept (env Config.default) 2) node (startArrivals Config.default)).map fun s =>
        (faultAfter s defaultData, faultAfter s zeroCountData)) =
      some (some none, some (some (.fault .divisionByZero))) := by
    decide +kernel
  obtain ⟨s, hs, heq⟩ := Option.map_eq_some_iff.mp hv
  exact ⟨s, hs, congrArg Prod.fst heq, congrArg Prod.snd heq⟩

theorem defaultRun_accepted : ∃ t, run (Blockchain.accept (env Config.default) 2) node
    (startArrivals Config.default ++ [arrival (defaultBlock defaultData)]) = some t := by
  obtain ⟨s, hs, hf, _⟩ := defaultBlock_accepted
  obtain ⟨t, ht, _⟩ := Option.map_eq_some_iff.mp hf
  rw [run_append, hs]
  exact ⟨t, run_cons_eq_some.mpr ⟨t, ht, rfl⟩⟩

theorem defaultBlock_spinnerData : (defaultBlock defaultData).spinnerData = defaultData := by
  decide +kernel

theorem defaultBlock_sound {below : List Block} (hlen : below.length = 101) :
    SoundBlock Config.default below (defaultBlock defaultData) := by
  refine ⟨?_, ?_, ?_, ?_⟩
  · rw [defaultBlock_spinnerData]
    decide
  · rw [defaultBlock_spinnerData]
    decide
  · rw [defaultBlock_spinnerData]
    intro hs
    exact absurd hs (by decide)
  · intro p P hP hp _
    obtain ⟨hl, _⟩ | ⟨rfl, rfl⟩ := getElem?_concat_cases hP
    · change 100 < p at hp
      omega
    · unfold elapsedSince intervalWeight
      rw [defaultBlock_spinnerData]
      have hf : ¬ Config.default.startAmountBlocks < defaultData.nfo.prevuosHeight := by decide
      simp only [lt_irrefl, if_false, hf]
      decide

theorem defaultRun_sound : EveryStep (Blockchain.accept (env Config.default) 2)
      (fun s a => (env Config.default).cfg.startAmountBlocks < s.db.height →
        SoundBlock (env Config.default).cfg (s.db.entries.map (·.block)) a.block) node
      (startArrivals Config.default ++ [arrival (defaultBlock defaultData)]) := by
  intro pre i post u ha hr hb
  have hlen : u.db.entries.length = pre.length := by
    rw [run_length hr]
    exact Nat.zero_add _
  have hpa : 100 < pre.length := by
    rw [UInt64.lt_iff_toNat_lt, Db.height_toNat, hlen] at hb
    exact hb
  have ht := congrArg List.length ha
  have hs : (startArrivals Config.default).length = 101 := by
    simp [startArrivals, Config.default]
  simp only [length_append, length_cons, hs, length_nil] at ht
  have hp : pre.length = 101 := by omega
  obtain ⟨_, hrs⟩ := append_inj ha (by rw [hs, hp])
  cases hrs
  exact defaultBlock_sound (by rw [length_map, hlen, hp])

end Sample

open Sample in
theorem no_division_by_zero_after_first_block : ∃ t, run (Blockchain.accept (env Config.default) 2) node
        (startArrivals Config.default ++ [arrival (defaultBlock defaultData)]) = some t ∧
      getSpinnerData (env Config.default) 2 1000000 t.db alice SpinnerData.zero 0 ≠
        .error (.fault .divisionByZero) := by
  obtain ⟨t, hr⟩ := defaultRun_accepted
  exact ⟨t, hr, no_division_by_zero rfl rfl hr defaultRun_sound 2 1000000 alice SpinnerData.zero 0⟩

open Sample in
/-- A block that counts zero spinners is accepted, and the next call divides by that count. -/
theorem division_by_carried_count :
    ¬ ∀ (env : Env) (fuel : Nat) (st₀ s : Blockchain) (as : List Arrival) (fuel' : Nat) (now : UInt64)
      (info : SpinnerInfo) (res : SpinnerData) (timeTo : UInt64), env.cfg = Config.default →
      st₀.db = Db.empty → run (Blockchain.accept env fuel) st₀ as = some s →
      getSpinnerData env fuel' now s.db info res timeTo ≠ .error (.fault .divisionByZero) := by
  intro h
  obtain ⟨s, hs, _, hf⟩ := defaultBlock_accepted
  obtain ⟨t, ht, ho⟩ := Option.map_eq_some_iff.mp hf
  have hr : run (Blockchain.accept (env Config.default) 2) node
      (startArrivals Config.default ++ [arrival (defaultBlock zeroCountData)]) = some t := by
    rw [run_append, hs]
    exact run_cons_eq_some.mpr ⟨t, ht, rfl⟩
  refine h (env Config.default) 2 node t _ 2 1000000 alice SpinnerData.zero 0 rfl rfl hr ?_
  split at ho
  · rename_i stop hg
    cases ho
    exact hg
  · cases ho

end Gyro
