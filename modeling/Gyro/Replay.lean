import Gyro.Node
import Gyro.Lib.Along

/-!
# A block that was accepted is accepted again

On the same blocks and index, with its transactions in the pool and the clock not set
back, a block of the main chain passes every check again and is stored the same.
-/

namespace Gyro

open Runs Exits Prefixes

namespace Db

def withTable (db : Db) (table : PublicKey → Option UInt64) : Db := { db with spinnerHeights := table }

theorem eq_withTable {db db' : Db} (h : db'.entries = db.entries) : db' = db.withTable db'.spinnerHeights := by
  cases db with | mk entries table bounded =>
    cases db' with | mk entries' table' bounded' =>
      cases h
      rfl

theorem getBlockFromHeight_withTable (db : Db) (table : PublicKey → Option UInt64) (h : UInt64) :
    (db.withTable table).getBlockFromHeight h = db.getBlockFromHeight h := rfl

end Db

section
variable {env : Env} {db : Db} {table : PublicKey → Option UInt64} {fuel : Nat} {now now' : UInt64}
  {b : Block} {adr : AccountPublicAddress} {nfo info : SpinnerInfo}

theorem lockedWalk_withTable {tx : Transaction} {amounts : List UInt64} :
    lockedWalk env (db.withTable table) adr fuel tx amounts = lockedWalk env db adr fuel tx amounts := by
  induction fuel generalizing tx amounts with
  | zero => rfl
  | succ fuel ih =>
    unfold lockedWalk
    simp only [ih]
    rfl

theorem calcSpinnerTransactionLocked_withTable : calcSpinnerTransactionLocked env fuel (db.withTable table) nfo =
      calcSpinnerTransactionLocked env fuel db nfo := by
  unfold calcSpinnerTransactionLocked
  simp only [lockedWalk_withTable]
  rfl

theorem getSpin_withTable {txid : Hash} {m : UInt64} :
    getSpin env.cfg (db.withTable table) txid m = getSpin env.cfg db txid m := rfl

theorem getSpinnerTransactionLocked_withTable {height : UInt64} :
    getSpinnerTransactionLocked env fuel (db.withTable table) b height =
      getSpinnerTransactionLocked env fuel db b height := by
  unfold getSpinnerTransactionLocked
  simp only [calcSpinnerTransactionLocked_withTable]

variable {tip : SpinnerData × UInt64}

theorem readTip_replay {height : UInt64} (h : readTip env db height now = .ok tip) :
    readTip env (db.withTable table) height now' = .ok tip := by
  unfold readTip at h ⊢
  split at h
  · rename_i hs
    rw [if_pos hs]
    rw [Db.getBlockFromHeight_withTable]
    split at h
    · cases h
    · split at h
      · cases h
      · exact h
  · rename_i hs
    rw [if_neg hs]
    exact h

theorem searchPrevuos_replay {prevuosHeight : UInt64} {found : SpinnerData × UInt64}
    (h : searchPrevuos db info prevuosHeight now fuel = .ok found) :
    searchPrevuos (db.withTable table) info prevuosHeight now' fuel = .ok found := by
  induction fuel with
  | zero => cases h
  | succ fuel ih =>
    unfold searchPrevuos at h ⊢
    rw [Db.getBlockFromHeight_withTable]
    split at h
    · cases h
    · split at h
      · cases h
      · split at h
        · rename_i ha
          rw [if_pos ha]
          exact h
        · rename_i ha
          rw [if_neg ha]
          exact ih h

theorem requireLocked_replay {timeTo timeTo' locked : UInt64} (h : requireLocked env db fuel nfo timeTo = .ok locked) :
    requireLocked env (db.withTable table) fuel nfo timeTo' = .ok locked := by
  unfold requireLocked
  rw [calcSpinnerTransactionLocked_withTable, requireLocked_eq_ok h]

variable {height prevuosHeight : UInt64}

theorem readReturning_replay {r : SpinReads} (h : readReturning env db fuel height prevuosHeight now info tip = .ok r) :
    readReturning env (db.withTable table) fuel height prevuosHeight now' info tip = .ok r := by
  obtain ⟨found, hf, h⟩ := bind_eq_ok.mp h
  obtain ⟨interval, hi, h⟩ := bind_eq_ok.mp h
  obtain ⟨locked, hl, h⟩ := bind_eq_ok.mp h
  refine bind_eq_ok.mpr ⟨found, searchPrevuos_replay hf, ?_⟩
  refine bind_eq_ok.mpr ⟨interval, hi, ?_⟩
  exact bind_eq_ok.mpr ⟨locked, requireLocked_replay hl, h⟩

theorem readFirst_replay {r : SpinReads} (h : readFirst env db height prevuosHeight now info tip = .ok r) :
    readFirst env (db.withTable table) height prevuosHeight now' info tip = .ok r := by
  unfold readFirst at h ⊢
  split at h
  · cases h
  · rename_i proofHeight hp
    have hp' : (db.withTable table).getTxBlockHeight info.proof.txid = some proofHeight := hp
    rw [hp']
    exact h

section
variable (hindex : ∀ pk, (db.withTable table).getSpinnerHeight pk = db.getSpinnerHeight pk)
include hindex

theorem startHeight_withTable : startHeight (db.withTable table) info = startHeight db info := by
  unfold startHeight
  rw [hindex]

theorem readChain_replay {height : UInt64} {r : SpinReads} (h : readChain env db fuel height now info = .ok r) :
    readChain env (db.withTable table) fuel height now' info = .ok r := by
  obtain ⟨tip, ht, h⟩ := bind_eq_ok.mp h
  refine bind_eq_ok.mpr ⟨tip, readTip_replay ht, ?_⟩
  rw [startHeight_withTable hindex]
  dsimp only at h ⊢
  split at h
  · rename_i hs
    rw [if_pos hs]
    exact readReturning_replay h
  · rename_i hs
    rw [if_neg hs]
    exact readFirst_replay h

theorem getSpinnerData_replay {res data : SpinnerData} {timeTo₀ timeTo : UInt64} (hc : now ≤ now')
    (h : getSpinnerData env fuel now db info res timeTo₀ = .ok (data, timeTo)) :
    getSpinnerData env fuel now' (db.withTable table) info res timeTo₀ = .ok (data, timeTo) := by
  unfold getSpinnerData at h ⊢
  dsimp only at h ⊢
  change (if db.height - 1 < env.cfg.startAmountBlocks then _ else _) = _
  split at h
  · rename_i hs
    rw [if_pos hs]
    exact h
  · rename_i hs
    rw [if_neg hs]
    obtain ⟨r, hr, h⟩ := bind_eq_ok.mp h
    obtain ⟨_, ht, h⟩ := bind_eq_ok.mp h
    obtain ⟨locked, hl, h⟩ := bind_eq_ok.mp h
    refine bind_eq_ok.mpr ⟨r, readChain_replay hindex hr, ?_⟩
    refine bind_eq_ok.mpr ⟨(), ?_, ?_⟩
    · unfold requireTime at ht ⊢
      split at ht
      · cases ht
      · rename_i hle
        rw [if_neg]
        intro hlt
        exact hle (UInt64.lt_of_le_of_lt hc hlt)
    · exact bind_eq_ok.mpr ⟨locked, requireLocked_replay hl, h⟩

theorem verifySpin_replay {data : SpinnerData} {spin : SpinType} (hc : now ≤ now')
    (h : verifySpin env fuel now db data = .ok spin) :
    verifySpin env fuel now' (db.withTable table) data = .ok spin := by
  obtain ⟨hs, computed, timeTo, hg, ha⟩ := verifySpin_eq_ok h
  unfold verifySpin
  rw [getSpin_withTable, hs]
  simp only [getSpinnerData_replay hindex hc hg, ha, if_true]

theorem verifyBlock_replay {weight fee : UInt64} {v : Verified} (hc : now ≤ now')
    (h : verifyBlock env fuel now db b weight fee = .ok v) :
    verifyBlock env fuel now' (db.withTable table) b weight fee = .ok v := by
  obtain ⟨hr, hl, hp, hu⟩ := verifyBlock_eq_ok h
  have hr' : validateSpinnerTransaction env (db.withTable table) b (db.withTable table).height
      weight fee (alreadyGeneratedCoins (db.withTable table))
      (currentVersion env.cfg (db.withTable table)) = some v.reward := hr
  have hl' : getSpinnerTransactionLocked env fuel (db.withTable table) b
      (db.withTable table).height = .ok (some v.data) := by
    rw [getSpinnerTransactionLocked_withTable]
    exact hl
  unfold verifyBlock
  simp only [hr', hl']
  by_cases hs : env.cfg.startAmountBlocks < db.height
  · have hs' := verifySpin_replay hindex hc (hp hs)
    simp only [hs']
    exact if_pos hs
  · rw [← hu hs]
    exact if_neg hs

end

theorem checkBlockTimestamp_replay (hc : now ≤ now')
    (hn : now'.toNat + blockFutureTimeLimit.toNat < 2 ^ 64) (h : checkBlockTimestamp db now b = true) :
    checkBlockTimestamp (db.withTable table) now' b = true := by
  unfold checkBlockTimestamp at h ⊢
  split at h
  · cases h
  · rename_i hf
    rw [if_neg]
    · exact h
    · rw [UInt64.lt_iff_toNat_lt, UInt64.toNat_add] at hf ⊢
      have hle := UInt64.le_iff_toNat_le.mp hc
      omega

theorem headerRejection_replay {st st' : Blockchain} (hd : st'.db = st.db.withTable table)
    (hh : st'.blocksHashCheck = st.blocksHashCheck) (hc : now ≤ now')
    (hn : now'.toNat + blockFutureTimeLimit.toNat < 2 ^ 64)
    (h : headerRejection env now st b = none) : headerRejection env now' st' b = none := by
  have ht := (headerRejection_none h).2
  have ht' := @checkBlockTimestamp_replay st.db table now now' b hc hn ht
  have hx : expectedHash st' st'.db.height = expectedHash st st.db.height := by
    unfold expectedHash
    rw [hh, hd]
    rfl
  unfold headerRejection at h ⊢
  dsimp only at h ⊢
  rw [hx, hd]
  rw [ht] at h
  rw [ht']
  exact h

theorem addBlock_replay {db₁ : Db} {e : BlockEntry} (h : db.addBlock e = .ok db₁) :
    ∃ db₂, (db.withTable table).addBlock e = .ok db₂ := by
  have hc : (db.withTable table).addBlockChecks e = .ok () := (Db.addBlock_eq_ok h).1
  unfold Db.addBlock at h ⊢
  rw [hc]
  have hl : db.entries.length + 1 < 2 ^ 63 := by
    have hn := (Db.addBlock_eq_ok h).2.1
    have hb := db₁.bounded
    rw [hn, List.length_append] at hb
    exact hb
  exact ⟨_, dif_pos hl⟩

end

/-- Written for a block accepted on top of `low`, with an exact index and not after `now`. -/
def WasAccepted (env : Env) (fuel : Nat) (now : UInt64) (hashes : List (Hash × UInt64))
    (low : List BlockEntry) (e : BlockEntry) : Prop :=
  ∃ at_ s s' t weight v, at_ ≤ now ∧ s.db.entries = low ∧ s.db.IndexExact ∧
    s.blocksHashCheck = hashes ∧ Accepted env fuel at_ s e.block s' t weight v ∧
    e = newEntry s.db e.block t.txs weight v

/-- The transactions can be taken again on top of `low`: not pruned, with good inputs, and not
compared with a precompiled list. -/
structure Replayable (env : Env) (now : UInt64) (st : Blockchain) (low : List BlockEntry)
    (e : BlockEntry) : Prop where
  whole : ∀ tx ∈ e.txs, tx.pruned = false
  inputs : ∀ tx ∈ e.txs, env.checkTxInputs low now tx = true
  listed : e.txs ≠ [] → expectedHash st (UInt64.ofNat low.length) = none

instance (env : Env) (now : UInt64) (st : Blockchain) (low : List BlockEntry) (e : BlockEntry) :
    Decidable (Replayable env now st low e) :=
  decidable_of_iff ((∀ tx ∈ e.txs, tx.pruned = false) ∧ (∀ tx ∈ e.txs, env.checkTxInputs low now tx = true) ∧
      (e.txs ≠ [] → expectedHash st (UInt64.ofNat low.length) = none))
    ⟨fun ⟨h, h', h''⟩ => ⟨h, h', h''⟩, fun h => ⟨h.whole, h.inputs, h.listed⟩⟩

structure Ready (st : Blockchain) (low : List BlockEntry) (e : BlockEntry) : Prop where
  entries : st.db.entries = low
  index : st.db.IndexExact
  held : ∀ tx ∈ e.txs, st.pool.lookup tx.hash = some tx

section
variable {env : Env} {fuel : Nat} {now : UInt64} {st st' : Blockchain} {low : List BlockEntry}
  {e : BlockEntry} {b : Block} {t : Taken} {weight : UInt64} {v : Verified}

theorem Accepted.takes (h : Accepted env fuel now st b st' t weight v) :
    Takes env now st b.txHashes t.txs ∧ t.pool = st.pool.removeAll b.txHashes := by
  have ht := takeTxs_eq_ok takenFrom_nil h.taken
  exact ⟨ht.takes, ht.pool⟩

theorem Accepted.extends (h : Accepted env fuel now st b st' t weight v) :
    Extends env fuel now st.db b st'.db t.txs weight v := by
  obtain ⟨hp, ht⟩ := headerRejection_none h.header
  exact ⟨hp, ht, h.verified, h.written⟩

variable {txs : List Transaction}

/-- Outside the precompiled heights a block's own transactions pass again. -/
theorem Takes.replay {s : Blockchain} {at_ : UInt64} {ids : List Hash}
    (h : Takes env at_ s ids txs) (hn : st.db.entries = s.db.entries)
    (hh : ∀ tx ∈ txs, st.pool.lookup tx.hash = some tx)
    (hin : ∀ tx ∈ txs, env.checkTxInputs st.db.entries now tx = true)
    (hl : txs ≠ [] → fastCheck st = false) : Takes env now st ids txs := by
  refine ⟨h.hashes, hh, h.distinct, ?_, h.plain, ?_⟩
  · intro id hd
    have hf := h.fresh id hd
    unfold Db.txExists at hf ⊢
    rw [hn]
    exact hf
  · intro i tx hi
    have hme := List.mem_of_getElem? hi
    unfold inputsAccepted
    rw [hl (List.ne_nil_of_mem hme)]
    exact hin tx hme

theorem blockWeight_whole (h : ∀ tx ∈ txs, tx.pruned = false) :
    blockWeight st b txs = some (txs.foldl (fun acc tx => acc + tx.weight) b.spinnerTx.weight) := by
  have hn : (txs.any fun tx => tx.pruned) = false := by
    rw [List.any_eq_false]
    intro tx ht
    rw [h tx ht]
    exact Bool.false_ne_true
  unfold blockWeight
  rw [hn]
  exact if_neg Bool.false_ne_true

theorem WasAccepted.again (h : WasAccepted env fuel now st.blocksHashCheck low e)
    (hn : now.toNat + blockFutureTimeLimit.toNat < 2 ^ 64) (hr : Ready st low e)
    (hp : Replayable env now st low e) : ∃ st', handleBlockToMainChain env fuel now st e.block = .added st' ∧
      st'.db.entries = low ++ [e] ∧ st'.db.IndexExact ∧ st'.pool = st.pool.removeAll e.block.txHashes ∧
      st'.blocksHashCheck = st.blocksHashCheck := by
  obtain ⟨at_, s, s', t, weight, v, ht, rfl, hindex, hha, ha, he⟩ := h
  have hx : e.txs = t.txs := by rw [he]; rfl
  have hd : st.db = s.db.withTable st.db.spinnerHeights := Db.eq_withTable hr.entries
  have hs : ∀ pk, (s.db.withTable st.db.spinnerHeights).getSpinnerHeight pk =
      s.db.getSpinnerHeight pk := by
    intro pk
    rw [← hd, hr.index, hindex, hr.entries]
  have hh := hr.held
  have hwh := hp.whole
  have hi := hp.inputs
  have hl := hp.listed
  rw [hx] at hh hwh hi hl
  rw [← hr.entries] at hi hl
  have hk : Takes env now st e.block.txHashes t.txs := by
    refine ha.takes.1.replay hr.entries hh hi ?_
    intro hne
    unfold fastCheck Db.height
    rw [hl hne]
    rfl
  have hta := hk.takeTxs []
  rw [List.append_nil] at hta
  have hwg : blockWeight st e.block t.txs = some weight := by
    have hwe := ha.weighed
    rw [blockWeight_whole hwh] at hwe ⊢
    exact hwe
  have hv := verifyBlock_replay hs ht ha.verified
  obtain ⟨db₂, hwr⟩ := @addBlock_replay s.db st.db.spinnerHeights _ _ ha.written
  rw [← hd] at hv hwr
  have hy : newEntry st.db e.block t.txs weight v = e := by
    rw [hd, he]
    rfl
  have hg : Accepted env fuel now st e.block
      { st with db := db₂, pool := st.pool.removeAll e.block.txHashes, blocksTxsCheck := [] }
      ⟨st.pool.removeAll e.block.txHashes, t.txs⟩ weight v := by
    refine ⟨?_, hta, hwg, hv, ?_, rfl⟩
    · exact headerRejection_replay hd hha.symm ht hn ha.header
    · rw [hy, he]
      exact hwr
  refine ⟨_, handle_added_of hg, ?_, ?_, rfl, rfl⟩
  · rw [(Db.addBlock_eq_ok hwr).2.1, ← he, hr.entries]
  · exact Db.indexExact_add hr.index hg.extends.apply_add

end

structure Validated (env : Env) (fuel : Nat) (now : UInt64) (st : Blockchain) : Prop where
  keys : st.db.KeysCarried
  index : st.db.IndexExact
  accepted : Along (WasAccepted env fuel now st.blocksHashCheck) [] st.db.entries

/-- Not after `now`, and a popped block carries the true height of its spinner's previous block. -/
def NodeOp.InOrder (now : UInt64) (st : Blockchain) : NodeOp → Prop
  | .handle at_ _ => at_ ≤ now
  | .pop => Db.TruthfulRemoval st.db .remove
  | _ => True

section
variable {env : Env} {fuel : Nat} {now at_ : UInt64} {st st' : Blockchain} {b : Block}

theorem handle_blocksHashCheck :
    (handleBlockToMainChain env fuel at_ st b).state.blocksHashCheck = st.blocksHashCheck := by
  unfold handleBlockToMainChain
  split
  · rfl
  · split
    · split
      · rfl
      · rfl
    · split
      · rfl
      · dsimp only
        split
        · rfl
        · rfl
        · split
          · rfl
          · rfl

theorem Accepted.entries {t : Taken} {weight : UInt64} {v : Verified} (h : Accepted env fuel at_ st b st' t weight v) :
    st'.db.entries = st.db.entries ++ [newEntry st.db b t.txs weight v] := h.extends.entries

variable (hs : Validated env fuel now st)
include hs

theorem Validated.added (ht : at_ ≤ now)
    (h : handleBlockToMainChain env fuel at_ st b = .added st') : Validated env fuel now st' := by
  obtain ⟨t, weight, v, ha⟩ := handle_added h
  have hd := ha.extends.apply_add
  have hh : st'.blocksHashCheck = st.blocksHashCheck := by rw [ha.state]
  refine ⟨Db.keysCarried_apply hs.keys hd, Db.indexExact_add hs.index hd, ?_⟩
  rw [ha.entries, hh]
  exact along_concat.mpr ⟨hs.accepted, at_, st, st', t, weight, v, ht, rfl, hs.index, rfl, ha, rfl⟩

theorem Validated.pop (ht : Db.TruthfulRemoval st.db .remove)
    {popped : Block} (h : popBlockFromBlockchain st = .ok (st', popped)) : Validated env fuel now st' := by
  obtain ⟨e, hr, _, hsta⟩ := popBlock_eq_ok h
  have hn := (Db.removeBlock_eq_ok hr).1
  have hh : st'.blocksHashCheck = st.blocksHashCheck := by rw [hsta]
  refine ⟨?_, ?_, ?_⟩
  · intro e' he'
    exact hs.keys e' (by rw [hn]; exact List.mem_append_left _ he')
  · rw [Db.indexExact_remove hs.keys hs.index hr]
    exact ht _ e hn
  · have ha := hs.accepted
    rw [hn, along_concat] at ha
    rw [hh]
    exact ha.1

theorem Validated.step {op : NodeOp} (ho : op.InOrder now st)
    (h : nodeStep env fuel st op = some st') : Validated env fuel now st' := by
  cases op with
  | handle at_ b =>
    cases h
    by_cases ha : ∃ st', handleBlockToMainChain env fuel at_ st b = .added st'
    · obtain ⟨st', hs'⟩ := ha
      rw [hs']
      exact hs.added ho hs'
    · obtain ⟨hd, _⟩ := handle_not_added (fun st' h => ha ⟨st', h⟩)
      have hh := @handle_blocksHashCheck env fuel at_ st b
      refine ⟨by rw [hd]; exact hs.keys, by rw [hd]; exact hs.index, ?_⟩
      rw [hd, hh]
      exact hs.accepted
  | pop =>
    obtain ⟨popped, hp⟩ := nodeStep_pop.mp h
    exact hs.pop ho hp
  | store b =>
    obtain ⟨chain, ab, hr⟩ := nodeStep_store.mp h
    obtain ⟨_, _, _, _, hso⟩ := storeAlternative_eq_ok hr
    rw [hso.state]
    exact ⟨hs.keys, hs.index, hs.accepted⟩
  | removeAlt id =>
    cases h
    exact ⟨hs.keys, hs.index, hs.accepted⟩
  | touch pool invalidBlocks blocksTxsCheck =>
    cases h
    exact ⟨hs.keys, hs.index, hs.accepted⟩

end

/-- Every state a node reaches up to `now` when each popped block was truthful. -/
def ReachedInOrder (env : Env) (fuel : Nat) (now : UInt64) (st : Blockchain) : Prop :=
  ∃ st₀ ops, Fresh st₀ ∧ run (nodeStep env fuel) st₀ ops = some st ∧
    EveryStep (nodeStep env fuel) (fun s op => op.InOrder now s) st₀ ops

theorem ReachedInOrder.validated {env : Env} {fuel : Nat} {now : UInt64} {st : Blockchain}
    (h : ReachedInOrder env fuel now st) : Validated env fuel now st := by
  obtain ⟨st₀, ops, hf, hr, ht⟩ := h
  refine run_invariant (I := Validated env fuel now) ?_ ?_ ht hr
  · intro s op t hs ho hse
    exact hs.step ho hse
  · obtain ⟨hk, hindex⟩ := Db.empty_exact
    refine ⟨?_, ?_, ?_⟩
    · rw [hf.db]
      exact hk
    · rw [hf.db]
      exact hindex
    · rw [hf.db]
      exact along_nil

end Gyro
