import Gyro.Accept

/-!
# When `get_spinner_data` returns

The search loop reads one and the same block until it belongs to the spinner.
-/

namespace Gyro

open Exits Runs

section
variable (env : Env) (db : Db) (info : SpinnerInfo)

def TipReadable : Prop :=
  env.cfg.startAmountBlocks < db.height - 1 →
    ∃ b d, db.getBlockFromHeight (db.height - 1) = some b ∧ b.spinData? = some d

/-- The search is entered, and its block carries the data of a spinner with another address. -/
structure MeetsForeignBlock : Prop where
  pastStart : env.cfg.startAmountBlocks ≤ db.height - 1
  tip : TipReadable env db
  search : env.cfg.startAmountBlocks < startHeight db info
  foreign : ∃ b d, db.getBlockFromHeight (startHeight db info) = some b ∧ b.spinData? = some d ∧
    d.nfo.adr ≠ info.adr

end

section
variable {env : Env} {db : Db} {info : SpinnerInfo} {fuel : Nat} {height now : UInt64}

theorem readTip_ok (h : TipReadable env db) : ∃ tip, readTip env db (db.height - 1) now = .ok tip := by
  unfold readTip
  by_cases hs : env.cfg.startAmountBlocks < db.height - 1
  · obtain ⟨b, d, hb, hd⟩ := h hs
    refine ⟨(d, b.timestamp), ?_⟩
    simp [hs, hb, hd]
  · exact ⟨_, by rw [if_neg hs]⟩

variable {tip : SpinnerData × UInt64}

theorem tipReadable_of_ok (h : readTip env db (db.height - 1) now = .ok tip) : TipReadable env db := by
  intro hs
  unfold readTip at h
  rw [if_pos hs] at h
  split at h
  · cases h
  · rename_i b hb
    split at h
    · cases h
    · rename_i d hd
      exact ⟨b, d, hb, hd⟩

variable {prevuosHeight : UInt64}

theorem searchPrevuos_foreign {b : Block} {d : SpinnerData}
    (hb : db.getBlockFromHeight prevuosHeight = some b) (hd : b.spinData? = some d)
    (hn : d.nfo.adr ≠ info.adr) (fuel : Nat) :
    searchPrevuos db info prevuosHeight now fuel = .error (.fault .outOfFuel) := by
  induction fuel with
  | zero => rfl
  | succ fuel ih =>
    simp only [searchPrevuos, hb, hd]
    rw [if_neg hn]
    exact ih

theorem searchPrevuos_ends (h : ∀ b d, db.getBlockFromHeight prevuosHeight = some b → b.spinData? = some d →
      d.nfo.adr = info.adr) :
    FailsOnly (· ≠ .fault .outOfFuel) (searchPrevuos db info prevuosHeight now (fuel + 1)) := by
  unfold searchPrevuos
  cases hb : db.getBlockFromHeight prevuosHeight with
  | none => exact failsOnly_error (by simp)
  | some b =>
    dsimp only
    cases hd : b.spinData? with
    | none => exact failsOnly_error (by simp)
    | some d =>
      dsimp only
      rw [if_pos (h b d hb hd)]
      exact failsOnly_ok _

theorem requireLocked_ends {nfo : SpinnerInfo} {timeTo : UInt64}
    (h : calcSpinnerTransactionLocked env fuel db nfo ≠ .error .outOfFuel) :
    FailsOnly (· ≠ .fault .outOfFuel) (requireLocked env db fuel nfo timeTo) := by
  unfold requireLocked
  split
  · rename_i f hf
    refine failsOnly_error ?_
    intro heq
    cases heq
    exact h hf
  · exact failsOnly_error (by simp)
  · exact failsOnly_ok _

theorem readReturning_ends (ho : ∀ b d, db.getBlockFromHeight prevuosHeight = some b → b.spinData? = some d →
      d.nfo.adr = info.adr ∧ calcSpinnerTransactionLocked env (fuel + 1) db d.nfo ≠ .error .outOfFuel) :
    FailsOnly (· ≠ .fault .outOfFuel) (readReturning env db (fuel + 1) height prevuosHeight now info tip) := by
  refine (searchPrevuos_ends fun b d hb hd => (ho b d hb hd).1).bind ?_
  rintro ⟨d, ts⟩ hs
  obtain ⟨b, hb, hd, _, _⟩ := searchPrevuos_eq_ok hs
  have hdiv : ∀ a b, FailsOnly (· ≠ .fault .outOfFuel) (div64 a b) := fun a b =>
    (div64_failsOnly a b).mono (by rintro _ rfl; simp)
  refine (elapsedInterval_failsOnly (missing_ne (by simp)) (fun _ _ => hdiv _ _) (fun _ _ => hdiv _ _) _ _).bind fun _ _ => ?_
  exact (requireLocked_ends (ho b d hb hd).2).bind fun _ _ => failsOnly_ok _

/-- A search that meets a foreign block uses up every amount of fuel. -/
theorem getSpinnerData_hangs (h : MeetsForeignBlock env db info) (fuel : Nat) (now : UInt64)
    (res : SpinnerData) (timeTo : UInt64) :
    getSpinnerData env fuel now db info res timeTo = .error (.fault .outOfFuel) := by
  obtain ⟨b, d, hb, hd, hn⟩ := h.foreign
  obtain ⟨tip, ht⟩ := @readTip_ok env db now h.tip
  have hs : ¬ db.height - 1 < env.cfg.startAmountBlocks := by
    simpa using h.pastStart
  have hr : readChain env db fuel (db.height - 1) now info = .error (.fault .outOfFuel) := by
    unfold readChain readReturning
    rw [ht, ok_bind, if_pos h.search, searchPrevuos_foreign hb hd hn, error_bind]
  unfold getSpinnerData
  rw [if_neg hs, hr, error_bind]

theorem exists_fuel_for_block (hdb : HashesCommit db) (h : UInt64) :
    ∃ bound, ∀ fuel, bound ≤ fuel → ∀ b d, db.getBlockFromHeight h = some b →
      b.spinData? = some d → calcSpinnerTransactionLocked env fuel db d.nfo ≠ .error .outOfFuel := by
  cases hb : db.getBlockFromHeight h with
  | none => exact ⟨0, fun _ _ b d hb' => by cases hb'⟩
  | some b =>
    cases hd : b.spinData? with
    | none => exact ⟨0, fun _ _ b' d hb' hd' => by cases hb'; rw [hd] at hd'; cases hd'⟩
    | some d =>
      obtain ⟨bound, hbound⟩ := @calcSpinnerTransactionLocked_ends env db hdb d.nfo
      refine ⟨bound, fun fuel hf b' d' hb' hd' => ?_⟩
      cases hb'
      rw [hd] at hd'
      cases hd'
      exact hbound fuel hf

/-- The call ends exactly when its search does not meet the block of another address. -/
theorem getSpinnerData_terminates_iff (hdb : HashesCommit db) (now : UInt64) (res : SpinnerData) (timeTo : UInt64) :
    (∃ fuel, getSpinnerData env fuel now db info res timeTo ≠ .error (.fault .outOfFuel)) ↔
      ¬ MeetsForeignBlock env db info := by
  constructor
  · rintro ⟨fuel, hn⟩ hf
    exact hn (getSpinnerData_hangs hf fuel now res timeTo)
  · intro hf
    by_cases hs : db.height - 1 < env.cfg.startAmountBlocks
    · refine ⟨0, ?_⟩
      unfold getSpinnerData
      rw [if_pos hs]
      simp
    obtain ⟨boundInfo, hi⟩ := @calcSpinnerTransactionLocked_ends env db hdb info
    obtain ⟨boundPrev, hp⟩ := @exists_fuel_for_block env db hdb (startHeight db info)
    refine ⟨boundInfo + boundPrev + 1, fun ho => ?_⟩
    have hm := @missing_ne .outOfFuel (by simp)
    refine getSpinnerData_failsOnly hm ?_ (fun _ => requireLocked_ends (hi _ (by omega)))
      (fun _ _ _ _ => (computeData_failsOnly _ _ _ _).mono (by rintro _ rfl; simp)) _ ho rfl
    refine (readTip_failsOnly hm _).bind fun tip ht => ?_
    refine FailsOnly.ite (fun hse => ?_) (fun _ => readFirst_failsOnly hm _ _ _)
    refine readReturning_ends fun b d hb hd => ⟨?_, hp _ (by omega) b d hb hd⟩
    by_contra hn
    exact hf ⟨by simpa using hs, tipReadable_of_ok ht, hse, b, d, hb, hd, hn⟩

end

namespace Sample

def bob : SpinnerInfo :=
  { alice with adr := { spendPublicKey := 21, viewPublicKey := 22 }, prevuosHeight := 9 }

theorem hashesCommit_of_no_proofs {db : Db}
    (h : (db.allTxs.all fun tx => tx.spinTxProofFromExtra.isNone) = true) : HashesCommit db := by
  refine ⟨fun _ => 0, fun tx ht id hr => ?_⟩
  obtain ⟨blob, proof, hb, _⟩ := hr
  have hn := List.all_eq_true.mp h tx ht
  rw [hb] at hn
  cases hn

theorem firstArrivals_accepted : ∃ s, run (Blockchain.accept (env config) 2) node (firstArrivals firstData) = some s ∧
      s.db.height = 10 ∧ HashesCommit s.db ∧ startHeight s.db bob = 9 ∧ startHeight s.db alice = 9 ∧
      (s.db.getBlockFromHeight 9).bind Block.spinData? = some firstData := by
  have hv : ((run (Blockchain.accept (env config) 2) node (firstArrivals firstData)).map
      fun s => (s.db.height, s.db.allTxs.all fun tx => tx.spinTxProofFromExtra.isNone,
        startHeight s.db bob, startHeight s.db alice, (s.db.getBlockFromHeight 9).bind Block.spinData?)) =
      some (10, true, 9, 9, some firstData) := by
    decide +kernel
  obtain ⟨s, hs, heq⟩ := Option.map_eq_some_iff.mp hv
  simp only [Prod.mk.injEq] at heq
  obtain ⟨hh, hp, hb, ha, hl⟩ := heq
  exact ⟨s, hs, hh, hashesCommit_of_no_proofs hp, hb, ha, hl⟩

end Sample

open Sample in
theorem getSpinnerData_terminates_for_alice :
    ∃ s, run (Blockchain.accept (env config) 2) node (firstArrivals firstData) = some s ∧
      ∃ fuel, getSpinnerData (env config) fuel 1000000 s.db alice SpinnerData.zero 0 ≠
        .error (.fault .outOfFuel) := by
  obtain ⟨s, hs, _, hc, _, ha, hl⟩ := firstArrivals_accepted
  refine ⟨s, hs, (getSpinnerData_terminates_iff hc 1000000 SpinnerData.zero 0).mpr ?_⟩
  rintro ⟨_, _, _, b, d, hb, hd, hn⟩
  rw [ha] at hb
  rw [hb, Option.bind_some, hd] at hl
  cases hl
  exact hn rfl

open Sample in
/-- The call for bob never returns: the block at the height bob names is alice's. -/
theorem getSpinnerData_hangs_on_foreign_block :
    ∃ s, run (Blockchain.accept (env config) 2) node (firstArrivals firstData) = some s ∧
      HashesCommit s.db ∧ ¬ ∃ fuel, getSpinnerData (env config) fuel 1000000 s.db bob
        SpinnerData.zero 0 ≠ .error (.fault .outOfFuel) := by
  obtain ⟨s, hs, hh, hc, ho, _, hl⟩ := firstArrivals_accepted
  obtain ⟨b, hb, hd⟩ := Option.bind_eq_some_iff.mp hl
  have hme : MeetsForeignBlock (env config) s.db bob :=
    { pastStart := by rw [hh]; decide
      tip := fun _ => ⟨b, firstData, by rw [hh]; exact hb, hd⟩
      search := by rw [ho]; decide
      foreign := ⟨b, firstData, by rw [ho]; exact hb, hd, by decide⟩ }
  refine ⟨s, hs, hc, ?_⟩
  rintro ⟨fuel, hn⟩
  exact hn (getSpinnerData_hangs hme fuel 1000000 SpinnerData.zero 0)

end Gyro
