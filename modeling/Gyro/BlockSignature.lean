import Gyro.PoolAtomic

/-!
# What the block signature of a spinner covers

The session key signs the previous hash, the height and the spinner data. Nothing
ties the coinbase keys or the timestamp to it, so a reward can be sent elsewhere.
-/

namespace Gyro

open Runs List

def TxOut.redirect (key : PublicKey → PublicKey) (o : TxOut) : TxOut :=
  match o.target with
  | .toKey k => { o with target := .toKey (key k) }
  | _ => o

def Block.forge (b : Block) (key : PublicKey → PublicKey) (timestamp : UInt64) (txid id : Hash) :
    Block :=
  { b with
    hash := id
    timestamp := timestamp
    spinnerTx := { b.spinnerTx with hash := txid, vout := b.spinnerTx.vout.map (·.redirect key) } }

/-- The hash at a height is fixed by the precompiled list or a checkpoint. -/
def Pinned (cfg : Config) (st : Blockchain) (height : UInt64) : Prop :=
  (expectedHash st height).isSome = true ∨ ∃ p ∈ cfg.checkpoints, p.1 = height

structure FreshHashes (db : Db) (b : Block) (txid id : Hash) : Prop where
  txid_chain : txid ∉ db.allTxs.map (·.hash)
  txid_block : txid ∉ b.txHashes
  id_chain : db.blockExists id = false

section
variable {key : PublicKey → PublicKey} {b : Block} {timestamp : UInt64} {txid id : Hash}

@[simp] theorem TxOut.redirect_amount (key : PublicKey → PublicKey) (o : TxOut) :
    (o.redirect key).amount = o.amount := by
  unfold TxOut.redirect
  split <;> rfl

@[simp] theorem Block.forge_amounts (b : Block) (key : PublicKey → PublicKey) (timestamp : UInt64)
    (txid id : Hash) : (b.forge key timestamp txid id).spinnerTx.amounts = b.spinnerTx.amounts := by
  simp [Block.forge, Transaction.amounts]

theorem prevalidate_forge (height : UInt64) (version : UInt8) :
    prevalidateSpinnerTransaction (b.forge key timestamp txid id) height version =
      prevalidateSpinnerTransaction b height version := by
  unfold prevalidateSpinnerTransaction
  rw [Block.forge_amounts]
  rfl

theorem validate_forge (env : Env) (db : Db) (height weight fee coins : UInt64) (version : UInt8) :
    validateSpinnerTransaction env db (b.forge key timestamp txid id) height weight fee coins version =
      validateSpinnerTransaction env db b height weight fee coins version := by
  unfold validateSpinnerTransaction
  rw [Block.forge_amounts]

theorem verifyBlock_forge (env : Env) (fuel : Nat) (now : UInt64) (db : Db) (weight fee : UInt64) :
    verifyBlock env fuel now db (b.forge key timestamp txid id) weight fee =
      verifyBlock env fuel now db b weight fee := by
  unfold verifyBlock
  rw [validate_forge]
  rfl

end

namespace Db

theorem addTransactions_mono {images : List PublicKey} {hashes hashes' : List Hash}
    {txs : List Transaction} (hs : ∀ tx ∈ txs, tx.hash ∈ hashes' → tx.hash ∈ hashes)
    (h : addTransactions images hashes txs = .ok ()) : addTransactions images hashes' txs = .ok () := by
  induction txs generalizing images hashes hashes' with
  | nil => rfl
  | cons tx txs ih =>
    unfold addTransactions at h ⊢
    split at h
    · cases h
    · rename_i him
      rw [if_neg him]
      split at h
      · cases h
      · rename_i hn
        rw [if_neg fun hi => hn (hs tx mem_cons_self hi)]
        apply ih _ h
        intro tx' ht' hi
        simp only [mem_cons] at hi ⊢
        exact hi.imp id (hs tx' (mem_cons_of_mem _ ht'))

end Db

section
variable {env : Env} {fuel : Nat} {now : UInt64} {st st' : Blockchain}

section
variable {b : Block} {key : PublicKey → PublicKey} {timestamp : UInt64} {txid id : Hash}

theorem not_pinned (h : ¬ Pinned env.cfg st st.db.height) : expectedHash st st.db.height = none ∧
      ∀ h, passesCheckpoints env.cfg st.db.height h = true := by
  simp only [Pinned, not_or, Option.isSome_iff_ne_none, not_not, not_exists, not_and] at h
  refine ⟨h.1, fun _ => ?_⟩
  simp only [passesCheckpoints, all_eq_true]
  intro p hp
  simp [h.2 p hp]

theorem Pinned.hash_eq {now' : UInt64} {b' : Block} (h : Pinned env.cfg st st.db.height)
    (hb : HeaderOk env now st b) (hb' : HeaderOk env now' st b') : b'.hash = b.hash := by
  obtain hx | ⟨p, hp, hhe⟩ := h
  · obtain ⟨h, hh⟩ := Option.isSome_iff_exists.mp hx
    rw [← hb.expected h hh, ← hb'.expected h hh]
  · have ho := all_eq_true.mp hb.checkpoint p hp
    have hp' := all_eq_true.mp hb'.checkpoint p hp
    simp only [hhe, ne_eq, not_true_eq_false, decide_false, Bool.false_or, decide_eq_true_eq] at ho hp'
    rw [← ho, ← hp']

theorem HeaderOk.forge (h : HeaderOk env now st b) (hp : ¬ Pinned env.cfg st st.db.height)
    (ht : checkBlockTimestamp st.db now { b with timestamp } = true) :
    HeaderOk env now st (b.forge key timestamp txid id) where
  prev := h.prev
  version := h.version
  timestamp := ht
  gyro := h.gyro
  expected h' hh := by simp [(not_pinned hp).1] at hh
  checkpoint := (not_pinned hp).2 _
  prevalidated := by
    rw [prevalidate_forge]
    exact h.prevalidated

theorem addBlockChecks_forge {t : Taken} {weight : UInt64} {v : Verified}
    (ha : Accepted env fuel now st b st' t weight v) (hf : FreshHashes st.db b txid id) :
    st.db.addBlockChecks (newEntry st.db (b.forge key timestamp txid id) t.txs weight v) = .ok () := by
  have hh : t.txs.map (·.hash) = b.txHashes :=
    (takeTxs_eq_ok takenFrom_nil ha.taken).takes.hashes
  obtain ⟨hs, ht, _, hp⟩ := Db.addBlockChecks_eq_ok.mp (Db.addBlock_eq_ok ha.written).1
  apply Db.addBlockChecks_eq_ok.mpr
  refine ⟨hs, ?_, hf.id_chain, hp⟩
  change Db.addTransactions _ _ ((b.forge key timestamp txid id).spinnerTx :: t.txs) = _
  change Db.addTransactions _ _ (b.spinnerTx :: t.txs) = _ at ht
  unfold Db.addTransactions at ht ⊢
  split at ht
  · cases ht
  · rename_i him
    rw [if_neg (by exact him), if_neg (by exact hf.txid_chain)]
    split at ht
    · cases ht
    · apply Db.addTransactions_mono _ ht
      intro tx hx hi
      have ho : tx.hash ≠ txid := by
        rintro rfl
        exact hf.txid_block (hh ▸ mem_map_of_mem hx)
      obtain heq | hi := mem_cons.mp hi
      · exact absurd heq ho
      · exact mem_cons_of_mem _ hi

/-- Changing the keys and the timestamp of an accepted block gives another accepted one. -/
theorem handle_forge (hd : handleBlockToMainChain env fuel now st b = .added st')
    (hp : ¬ Pinned env.cfg st st.db.height) (ht : checkBlockTimestamp st.db now { b with timestamp } = true)
    (hf : FreshHashes st.db b txid id) :
    ∃ st'', handleBlockToMainChain env fuel now st (b.forge key timestamp txid id) = .added st'' := by
  obtain ⟨t, weight, v, ha⟩ := handle_added hd
  have hr : st.db.entries.length + 1 < 2 ^ 63 := by
    have hb := st'.db.bounded
    rw [(Db.addBlock_eq_ok ha.written).2.1, length_append] at hb
    exact hb
  have hwr : ∃ db, st.db.addBlock (newEntry st.db (b.forge key timestamp txid id) t.txs weight v) =
      .ok db := by
    unfold Db.addBlock
    rw [addBlockChecks_forge ha hf]
    exact ⟨_, dif_pos hr⟩
  obtain ⟨db, hdb⟩ := hwr
  have hh := headerRejection_eq_none.mp ha.header
  have ho : Accepted env fuel now st (b.forge key timestamp txid id)
      { st with db, pool := t.pool, blocksTxsCheck := [] } t weight v := by
    constructor
    · exact headerRejection_eq_none.mpr (hh.forge hp ht)
    · exact ha.taken
    · exact ha.weighed
    · rw [verifyBlock_forge]
      exact ha.verified
    · exact hdb
    · rfl
  exact ⟨_, handle_added_of ho⟩

end

/-- Any published block accepted on the same chain with the same spinner data and signature has the
same outputs, timestamp and transactions. -/
def BindsBlock (env : Env) (fuel : Nat) (st : Blockchain) (published : Set Block) (b : Block) : Prop :=
  ∀ b' ∈ published, ∀ now' st', handleBlockToMainChain env fuel now' st b' = .added st' →
    b'.spinnerTx.spinDataFromExtra = b.spinnerTx.spinDataFromExtra →
    b'.spinnerTx.spinSigFromExtra = b.spinnerTx.spinSigFromExtra →
    b'.spinnerTx.vout = b.spinnerTx.vout ∧ b'.timestamp = b.timestamp ∧ b'.txHashes = b.txHashes

section
variable {b : Block} {published : Set Block}

/-- The signature binds outputs, timestamp and transactions exactly if the hash at that height is
fixed beforehand. -/
theorem spinner_signature_binds_iff (hhash : Set.InjOn Block.hash published) (hb : b ∈ published)
    (hadd : handleBlockToMainChain env fuel now st b = .added st')
    {key : PublicKey → PublicKey} {timestamp : UInt64} {txid id : Hash}
    (hchange : b.spinnerTx.vout.map (·.redirect key) ≠ b.spinnerTx.vout ∨ timestamp ≠ b.timestamp)
    (htime : checkBlockTimestamp st.db now { b with timestamp } = true)
    (hforge : b.forge key timestamp txid id ∈ published) (hfresh : FreshHashes st.db b txid id) :
    BindsBlock env fuel st published b ↔ Pinned env.cfg st st.db.height := by
  constructor
  · intro hi
    by_contra hp
    obtain ⟨st'', hf⟩ := @handle_forge _ _ _ _ _ _ key timestamp txid id hadd hp htime hfresh
    obtain ⟨hv, ht, _⟩ := hi _ hforge now st'' hf rfl rfl
    exact hchange.elim (fun h => h hv) (fun h => h ht)
  · intro hp b' hb' now' st'' ha' _ _
    obtain ⟨_, _, _, ha⟩ := handle_added hadd
    obtain ⟨_, _, _, hc'⟩ := handle_added ha'
    have heq := hp.hash_eq (headerRejection_eq_none.mp ha.header)
      (headerRejection_eq_none.mp hc'.header)
    rw [hhash hb' hb heq]
    exact ⟨rfl, rfl, rfl⟩

end

end

def Outcome.state? : Outcome → Option Blockchain
  | .added st => some st
  | _ => none

theorem Outcome.state?_isSome {o : Outcome} (h : o.state?.isSome = true) : ∃ st, o = .added st := by
  cases o with
  | added st => exact ⟨st, rfl⟩
  | rejected => cases h
  | raised => cases h

namespace Sample

def aliceBlock : Block := spinnerBlock 9 1080 39997744859481 firstData

def stolenBlock : Block := aliceBlock.forge (fun _ => 99) 1081 6009 7009

theorem stolenBlock_accepted : ∃ st st' st'',
    run (Blockchain.accept (env config) 2) node (startArrivals config) = some st ∧
      config.startAmountBlocks < st.db.height ∧
      handleBlockToMainChain (env config) 2 1000000 st aliceBlock = .added st' ∧
      handleBlockToMainChain (env config) 2 1000000 st stolenBlock = .added st'' ∧
      checkBlockTimestamp st.db 1000000 { aliceBlock with timestamp := 1081 } = true ∧
      FreshHashes st.db aliceBlock 6009 7009 := by
  have hv : ((run (Blockchain.accept (env config) 2) node (startArrivals config)).map fun st =>
      decide (config.startAmountBlocks < st.db.height ∧
        (handleBlockToMainChain (env config) 2 1000000 st aliceBlock).state?.isSome = true ∧
        (handleBlockToMainChain (env config) 2 1000000 st stolenBlock).state?.isSome = true ∧
        checkBlockTimestamp st.db 1000000 { aliceBlock with timestamp := 1081 } = true ∧
        (6009 : Hash) ∉ st.db.allTxs.map (·.hash) ∧ (6009 : Hash) ∉ aliceBlock.txHashes ∧
        st.db.blockExists 7009 = false)) = some true := by decide +kernel
  obtain ⟨st, hs, hd⟩ := Option.map_eq_some_iff.mp hv
  obtain ⟨ha, hl, ho, ht, htd, ht', hi⟩ := of_decide_eq_true hd
  obtain ⟨st', hs'⟩ := Outcome.state?_isSome hl
  obtain ⟨st'', hs''⟩ := Outcome.state?_isSome ho
  exact ⟨st, st', st'', hs, ha, hs', hs'', ht, htd, ht', hi⟩

end Sample

open Sample

theorem spinner_signature_binds_for_alice : ∃ st st',
    run (Blockchain.accept (env config) 2) node (startArrivals config) = some st ∧
      handleBlockToMainChain (env config) 2 1000000 st aliceBlock = .added st' ∧
      (BindsBlock (env config) 2 st {aliceBlock, stolenBlock} aliceBlock ↔
        Pinned config st st.db.height) := by
  obtain ⟨st, st', st'', hs, _, ha, _, ht, hf⟩ := stolenBlock_accepted
  have hh : Set.InjOn Block.hash {aliceBlock, stolenBlock} := by
    rintro x (rfl | rfl) y (rfl | rfl) h
    · rfl
    · exact absurd h (by decide +kernel)
    · exact absurd h (by decide +kernel)
    · rfl
  have ho : aliceBlock.forge (fun _ => 99) 1081 6009 7009 ∈
      ({aliceBlock, stolenBlock} : Set Block) := Or.inr rfl
  exact ⟨st, st', hs, ha,
    spinner_signature_binds_iff hh (Or.inl rfl) ha (Or.inr (by decide)) ht ho hf⟩

/-- A block with alice's data and signature that pays someone else is accepted. -/
theorem signed_reward_is_redirected : ∃ st st' st'',
    run (Blockchain.accept (env config) 2) node (startArrivals config) = some st ∧
      config.startAmountBlocks < st.db.height ∧
      handleBlockToMainChain (env config) 2 1000000 st aliceBlock = .added st' ∧
      handleBlockToMainChain (env config) 2 1000000 st stolenBlock = .added st'' ∧
      stolenBlock.spinnerTx.spinDataFromExtra = aliceBlock.spinnerTx.spinDataFromExtra ∧
      stolenBlock.spinnerTx.spinSigFromExtra = aliceBlock.spinnerTx.spinSigFromExtra ∧
      aliceBlock.spinnerTx.vout = [⟨39997744859481, .toKey 9⟩] ∧
      stolenBlock.spinnerTx.vout = [⟨39997744859481, .toKey 99⟩] ∧
      stolenBlock.timestamp ≠ aliceBlock.timestamp := by
  obtain ⟨st, st', st'', hs, ha, hl, ho, _⟩ := stolenBlock_accepted
  exact ⟨st, st', st'', hs, ha, hl, ho, rfl, rfl, rfl, rfl, by decide⟩

end Gyro
