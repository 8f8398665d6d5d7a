import Gyro.Lib.WordSum
import Gyro.Accept

/-!
# The stake of a spinner

`calc_spinner_transaction_locked` visits a chain of lock transactions. The stake is the
first amount and what the others hold above the minimum.
-/

namespace Gyro

open WordSum List

section
variable (env : Env) (db : Db) (adr : AccountPublicAddress)

/-- Stored lock transactions of one address, each referred to by the one before; the last refers to
none. -/
inductive LockChain : SpinnerTxProof → List (Transaction × UInt64) → Prop where
  | last {proof : SpinnerTxProof} {tx : Transaction} {amount : UInt64}
      (stored : lockedTx env db adr proof = some (tx, amount))
      (ends : tx.spinTxProofFromExtra = none) : LockChain proof [(tx, amount)]
  | next {proof proof' : SpinnerTxProof} {tx : Transaction} {amount : UInt64} {data : Blob}
      {rest : List (Transaction × UInt64)}
      (stored : lockedTx env db adr proof = some (tx, amount))
      (refers : tx.spinTxProofFromExtra = some data)
      (parsed : parseSpinnerTxProof data = some proof')
      (chain : LockChain proof' rest) : LockChain proof ((tx, amount) :: rest)

def stake (minLock : UInt64) : List (Transaction × UInt64) → Nat
  | [] => 0
  | first :: rest => first.2.toNat + (rest.map fun p => p.2.toNat - minLock.toNat).sum

/-- Nobody can prove more than a transaction holds, and all together hold less than 2^64. -/
def CoinsFit : Prop :=
  ∃ coins : Transaction → Nat,
    (∀ tx ∈ db.allTxs, ∀ adr pairs amount,
      checkSpinnerTransactionProof env tx.hash tx adr pairs = some amount → amount.toNat ≤ coins tx) ∧
    (db.allTxs.map coins).sum < 2 ^ 64

end

section
variable {env : Env} {db : Db} {adr : AccountPublicAddress} {proof : SpinnerTxProof}
  {chain : List (Transaction × UInt64)}

variable {tx : Transaction} {amount : UInt64}

theorem lockedTx_eq_some : lockedTx env db adr proof = some (tx, amount) ↔
      db.getTx proof.txid = some tx ∧ tx.unlockTime = spinnedMoneyLockedBlocks ∧
        checkSpinnerTransactionProof env proof.txid tx adr proof.pairs = some amount := by
  unfold lockedTx
  cases db.getTx proof.txid with
  | none => simp
  | some tx' =>
    by_cases hu : tx'.unlockTime = spinnedMoneyLockedBlocks
    · simp only [hu, ne_eq, not_true_eq_false, if_false, Option.map_eq_some_iff, Prod.mk.injEq,
        Option.some.injEq]
      constructor
      · rintro ⟨a, ha, rfl, rfl⟩
        exact ⟨rfl, hu, ha⟩
      · rintro ⟨rfl, _, ha⟩
        exact ⟨amount, ha, rfl, rfl⟩
    · simp only [ne_eq, hu, not_false_eq_true, if_true, Option.some.injEq, reduceCtorEq, false_iff]
      rintro ⟨rfl, hl, _⟩
      exact hu hl

theorem checkProof_eq_some {txid : Hash} {pairs : List ProofPair}
    (h : checkSpinnerTransactionProof env txid tx adr pairs = some amount) :
    env.checkTxKeys txid tx adr pairs = some amount ∧ env.cfg.spinnerAmountMinLock ≤ amount := by
  unfold checkSpinnerTransactionProof at h
  split at h
  · cases h
  · split at h
    · cases h
    · split at h
      · cases h
      · rename_i hk
        split at h
        · cases h
        · rename_i hi
          cases h
          exact ⟨hk, UInt64.not_lt.mp hi⟩

theorem LockChain.proven (h : LockChain env db adr proof chain) :
    ∀ p ∈ chain, p.1 ∈ db.allTxs ∧ p.1.unlockTime = spinnedMoneyLockedBlocks ∧
      ∃ pairs, checkSpinnerTransactionProof env p.1.hash p.1 adr pairs = some p.2 := by
  have ho : ∀ {proof : SpinnerTxProof} {tx : Transaction} {amount : UInt64},
      lockedTx env db adr proof = some (tx, amount) → tx ∈ db.allTxs ∧
        tx.unlockTime = spinnedMoneyLockedBlocks ∧
        ∃ pairs, checkSpinnerTransactionProof env tx.hash tx adr pairs = some amount := by
    intro proof tx amount hl
    obtain ⟨hg, hu, hc⟩ := lockedTx_eq_some.mp hl
    obtain ⟨hme, hh⟩ := getTx_mem hg
    exact ⟨hme, hu, proof.pairs, hh ▸ hc⟩
  induction h with
  | last stored _ =>
    intro p hp
    cases mem_singleton.mp hp
    exact ho stored
  | next stored _ _ _ ih =>
    intro p hp
    obtain rfl | hp := mem_cons.mp hp
    · exact ho stored
    · exact ih p hp

theorem LockChain.nodup {rank : Hash → Nat} (hr : ∀ tx ∈ db.allTxs, ∀ id, tx.RefersTo id → rank id < rank tx.hash)
    (h : LockChain env db adr proof chain) :
    (∀ p ∈ chain, rank p.1.hash ≤ rank proof.txid) ∧ (chain.map (·.1.hash)).Nodup := by
  induction h with
  | last stored _ =>
    refine ⟨fun p hp => ?_, by simp⟩
    cases mem_singleton.mp hp
    rw [(lockedTx_mem stored).2]
  | @next proof proof' tx amount data rest stored refers parsed _ ih =>
    obtain ⟨hle, hn⟩ := ih
    obtain ⟨hme, hh⟩ := lockedTx_mem stored
    have hl : rank proof'.txid < rank proof.txid := by
      rw [← hh]
      exact hr tx hme _ ⟨data, proof', refers, parsed, rfl⟩
    constructor
    · intro p hp
      obtain rfl | hp := mem_cons.mp hp
      · rw [hh]
      · have := hle p hp
        omega
    · rw [map_cons, nodup_cons]
      refine ⟨fun hi => ?_, hn⟩
      obtain ⟨p, hp, heq⟩ := mem_map.mp hi
      have := hle p hp
      rw [heq, hh] at this
      omega

theorem lockedWalk_chain {fuel : Nat} {amounts res : List UInt64} (hs : lockedTx env db adr proof = some (tx, amount))
    (h : lockedWalk env db adr fuel tx amounts = .ok (some res)) :
    ∃ rest, LockChain env db adr proof ((tx, amount) :: rest) ∧
      res = amounts ++ rest.map fun p => p.2 - env.cfg.spinnerAmountMinLock := by
  induction fuel generalizing proof tx amount amounts with
  | zero => cases h
  | succ fuel ih =>
    unfold lockedWalk at h
    split at h
    · rename_i hn
      cases h
      exact ⟨[], .last hs hn, by simp⟩
    · rename_i data hr
      split at h
      · cases h
      · rename_i proof' hp
        split at h
        · cases h
        · rename_i tx' amount' hs'
          obtain ⟨rest, hc, hrs⟩ := ih hs' h
          exact ⟨_, .next hs hr hp hc, by simp [hrs]⟩

theorem LockChain.amounts_le {coins : Transaction → Nat} (hc : ∀ tx ∈ db.allTxs, ∀ adr pairs amount,
      checkSpinnerTransactionProof env tx.hash tx adr pairs = some amount → amount.toNat ≤ coins tx)
    (h : LockChain env db adr proof chain) :
    (chain.map fun p => p.2.toNat).sum ≤ ((chain.map (·.1)).map coins).sum := by
  rw [map_map]
  apply sum_le_sum
  intro p hp
  obtain ⟨hme, _, pairs, hce⟩ := h.proven p hp
  exact hc p.1 hme adr pairs p.2 hce

theorem stake_eq {rest : List (Transaction × UInt64)} (hi : ∀ p ∈ rest, env.cfg.spinnerAmountMinLock ≤ p.2)
    (hf : (((tx, amount) :: rest).map fun (p : Transaction × UInt64) => p.2.toNat).sum < 2 ^ 64) :
    (([amount] ++ rest.map fun (p : Transaction × UInt64) =>
      p.2 - env.cfg.spinnerAmountMinLock).foldl (· + ·) 0).toNat =
      stake env.cfg.spinnerAmountMinLock ((tx, amount) :: rest) := by
  have ht : total (rest.map fun p => p.2 - env.cfg.spinnerAmountMinLock) =
      (rest.map fun p => p.2.toNat - env.cfg.spinnerAmountMinLock.toNat).sum := by
    rw [total, map_map]
    congr 1
    apply map_congr_left
    intro p hp
    exact UInt64.toNat_sub_of_le _ _ (hi p hp)
  have hle : (rest.map fun p => p.2.toNat - env.cfg.spinnerAmountMinLock.toNat).sum ≤
      (rest.map fun p => p.2.toNat).sum :=
    sum_le_sum fun p _ => Nat.sub_le _ _
  simp only [map_cons, sum_cons] at hf
  rw [sum_toNat, total_append, ht]
  · rfl
  · rw [total_append, total_cons, total_nil]
    omega

/-- The call ends, and its stake is that of a chain of distinct locks of the address, exact and
without underflow. -/
theorem locked_stake_exact (hcommit : HashesCommit db) (hcoins : CoinsFit env db) (nfo : SpinnerInfo) :
    (∃ bound, ∀ fuel, bound ≤ fuel → calcSpinnerTransactionLocked env fuel db nfo ≠ .error .outOfFuel) ∧
      ∀ fuel locked, calcSpinnerTransactionLocked env fuel db nfo = .ok (some locked) →
        ∃ chain, LockChain env db nfo.adr nfo.proof chain ∧ (chain.map (·.1.hash)).Nodup ∧
          (∀ p ∈ chain, p.1.unlockTime = spinnedMoneyLockedBlocks ∧ env.cfg.spinnerAmountMinLock ≤ p.2) ∧
          locked.toNat = stake env.cfg.spinnerAmountMinLock chain := by
  refine ⟨calcSpinnerTransactionLocked_ends hcommit nfo, fun fuel locked h => ?_⟩
  unfold calcSpinnerTransactionLocked at h
  split at h
  · cases h
  · rename_i tx amount hs
    obtain ⟨res, ha, h⟩ := Exits.bind_eq_ok.mp h
    cases res with
    | none => cases h
    | some amounts =>
      cases h
      obtain ⟨rest, hc, rfl⟩ := lockedWalk_chain hs ha
      obtain ⟨rank, hra⟩ := hcommit
      have hn := (hc.nodup hra).2
      have hr := hc.proven
      have hi : ∀ p ∈ (tx, amount) :: rest, env.cfg.spinnerAmountMinLock ≤ p.2 := by
        intro p hp
        obtain ⟨_, _, pairs, hce⟩ := hr p hp
        exact (checkProof_eq_some hce).2
      refine ⟨_, hc, hn, fun p hp => ⟨(hr p hp).2.1, hi p hp⟩, ?_⟩
      apply stake_eq fun p hp => hi p (mem_cons_of_mem _ hp)
      obtain ⟨coins, hle, hu⟩ := hcoins
      have hd : (((tx, amount) :: rest).map (·.1) |>.map coins).sum ≤ (db.allTxs.map coins).sum := by
        apply sum_le_of_nodup
        · rw [← Function.comp_def, ← map_map] at hn
          exact List.Nodup.of_map _ hn
        · intro t ht
          obtain ⟨p, hp, rfl⟩ := mem_map.mp ht
          exact (hr p hp).1
      have han := hc.amounts_le hle
      omega

end

namespace Sample

def lockEntry (id : Hash) (height amount : UInt64) (extra : List TxExtraField) : BlockEntry where
  block :=
    { startBlock config 0 with hash := id + 1000, spinnerTx := coinbase id height amount extra }
  txs := []
  weight := 100
  coins := 0
  gyro := GyroType.unit
  spinPublicKey := 0
  spinPrevuosHeight := 0

def firstLock : SpinnerTxProof := { txid := 5001, pairs := [{ key := 1, sig := 1 }] }

def twoLocks : Db where
  entries :=
    [lockEntry 5001 0 3000000000000 [.pubKey 9],
     lockEntry 5002 1 2000000000000 [.pubKey 9, .spinTxProof (writeSpinnerTxProof firstLock)]]
  spinnerHeights _ := none
  bounded := by decide

def secondLock : SpinnerInfo := { alice with proof := { txid := 5002, pairs := [⟨1, 1⟩] } }

theorem twoLocks_commit : HashesCommit twoLocks := by
  refine ⟨BitVec.toNat, fun tx ht id hr => ?_⟩
  obtain ⟨data, proof, hd, hp, rfl⟩ := hr
  have hc : tx = (lockEntry 5001 0 3000000000000 [.pubKey 9]).block.spinnerTx ∨
      tx = (lockEntry 5002 1 2000000000000
        [.pubKey 9, .spinTxProof (writeSpinnerTxProof firstLock)]).block.spinnerTx := by
    simpa [Db.allTxs, twoLocks, BlockEntry.allTxs, lockEntry] using ht
  obtain rfl | rfl := hc
  · cases hd
  · cases hd
    have ha : parseSpinnerTxProof (writeSpinnerTxProof firstLock) = some firstLock := by
      decide +kernel
    cases ha.symm.trans hp
    decide

theorem coinsFit_of_amounts {cfg : Config} {db : Db}
    (h : (db.allTxs.map fun tx => total tx.amounts).sum < 2 ^ 64) : CoinsFit (env cfg) db := by
  refine ⟨fun tx => total tx.amounts, fun tx _ adr pairs amount hc => ?_, h⟩
  have ha : amount = tx.amounts.foldl (· + ·) 0 :=
    (Option.some.inj (checkProof_eq_some hc).1).symm
  rw [ha]
  exact (foldl_add_le _ _).trans_eq (Nat.zero_add _)

end Sample

open Sample

theorem locked_stake_exact_for_two_locks :
    ∃ chain, LockChain (env config) twoLocks secondLock.adr secondLock.proof chain ∧ (chain.map (·.1.hash)).Nodup ∧
      stake config.spinnerAmountMinLock chain = 2000000000000 + (3000000000000 - 1000000000000) := by
  have hc : (calcSpinnerTransactionLocked (env config) 2 twoLocks secondLock).toOption =
      some (some 4000000000000) := by decide +kernel
  obtain ⟨_, hx⟩ := locked_stake_exact twoLocks_commit
    (@coinsFit_of_amounts config twoLocks (by decide +kernel)) secondLock
  obtain ⟨chain, hh, hn, _, hs⟩ := hx 2 _ (Exits.toOption_eq_some.mp hc)
  exact ⟨chain, hh, hn, hs.symm⟩

end Gyro
