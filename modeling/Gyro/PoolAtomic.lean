import Gyro.Accept

/-!
# A rejected block and the pool

`handle_block_to_main_chain` drains the pool while it checks, and on most exits gives
back what it has taken. Three exits lose transactions.
-/

namespace Gyro

open Runs List

section
variable (env : Env) (now : UInt64) (st : Blockchain)

/-- The transactions are in the pool, named once, not on the chain, no messages, and have good
inputs. -/
structure Takes (ids : List Hash) (txs : List Transaction) : Prop where
  hashes : txs.map (·.hash) = ids
  held : ∀ tx ∈ txs, st.pool.lookup tx.hash = some tx
  distinct : ids.Nodup
  fresh : ∀ id ∈ ids, st.db.txExists id = false
  plain : ∀ tx ∈ txs, tx.smsFromExtra = none
  inputs : ∀ (i : Nat) tx, txs[i]? = some tx → inputsAccepted env now st i tx = true

/-- The loop has taken the named transactions and nothing else. -/
structure TakenFrom (ids : List Hash) (t : Taken) : Prop where
  takes : Takes env now st ids t.txs
  pool : t.pool = st.pool.removeAll ids

inductive TakeFails (id : Hash) (t : Taken) : Rejection → Taken → Prop where
  | known : st.db.txExists id = true → TakeFails id t .txInBlockchain t
  | unknown : t.pool.lookup id = none → TakeFails id t .unknownTx t
  | message (tx : Transaction) : st.db.txExists id = false → t.pool.lookup id = some tx →
      tx.smsFromExtra.isSome = true →
      TakeFails id t .messageTx { t with pool := t.pool.remove id }
  | inputs (tx : Transaction) : t.pool.lookup id = some tx →
      TakeFails id t .wrongInputs { pool := t.pool.remove id, txs := t.txs ++ [tx] }

end

section
variable {env : Env} {now : UInt64} {st : Blockchain} {ids : List Hash} {t t' : Taken} {id : Hash}
  {tx : Transaction} {why : Rejection}

theorem takenFrom_nil : TakenFrom env now st [] { pool := st.pool, txs := [] } := by
  refine ⟨⟨rfl, ?_, nodup_nil, ?_, ?_, ?_⟩, ?_⟩
  · intro tx ht
    cases ht
  · intro id hd
    cases hd
  · intro tx ht
    cases ht
  · intro i tx hi
    cases hi
  · exact (Pool.removeAll_nil st.pool).symm

section
variable (h : TakenFrom env now st ids t)
include h

theorem TakenFrom.lookup (ht : t.pool.lookup id = some tx) : id ∉ ids ∧ st.pool.lookup id = some tx ∧ tx.hash = id := by
  have hh := t.pool.keyed _ _ ht
  rw [h.pool, Pool.lookup_removeAll] at ht
  by_cases hi : id ∈ ids
  · rw [if_pos hi] at ht
    cases ht
  · rw [if_neg hi] at ht
    exact ⟨hi, ht, hh⟩

theorem TakenFrom.held_concat (ht : t.pool.lookup id = some tx) :
    ∀ tx' ∈ t.txs ++ [tx], st.pool.lookup tx'.hash = some tx' := by
  obtain ⟨_, hh, ha⟩ := h.lookup ht
  intro tx' ht'
  obtain hme | hme := mem_append.mp ht'
  · exact h.takes.held tx' hme
  · rw [mem_singleton.mp hme, ha]
    exact hh

theorem TakenFrom.concat (hf : st.db.txExists id = false)
    (ht : t.pool.lookup id = some tx) (hp : tx.smsFromExtra = none)
    (hip : inputsAccepted env now st t.txs.length tx = true) :
    TakenFrom env now st (ids ++ [id]) { pool := t.pool.remove id, txs := t.txs ++ [tx] } := by
  obtain ⟨hn, _, hh⟩ := h.lookup ht
  refine ⟨⟨?_, h.held_concat ht, ?_, ?_, ?_, ?_⟩, ?_⟩
  · rw [map_append, h.takes.hashes, map_singleton, hh]
  · refine nodup_append.mpr ⟨h.takes.distinct, by simp, ?_⟩
    intro a ha b hb hab
    rw [hab, mem_singleton.mp hb] at ha
    exact hn ha
  · intro id' hi'
    obtain hme | hme := mem_append.mp hi'
    · exact h.takes.fresh id' hme
    · rw [mem_singleton.mp hme]
      exact hf
  · intro tx' ht'
    obtain hme | hme := mem_append.mp ht'
    · exact h.takes.plain tx' hme
    · rw [mem_singleton.mp hme]
      exact hp
  · intro i tx' hi
    obtain ⟨_, hi⟩ | ⟨rfl, rfl⟩ := LastIndex.getElem?_concat_cases hi
    · exact h.takes.inputs i tx' hi
    · exact hip
  · rw [h.pool, Pool.removeAll_concat]

theorem takeTxs_eq_ok {rest : List Hash}
    (ht : takeTxs env now st rest t = .ok t') : TakenFrom env now st (ids ++ rest) t' := by
  induction rest generalizing ids t with
  | nil =>
    cases ht
    rw [append_nil]
    exact h
  | cons id rest ih =>
    unfold takeTxs at ht
    split at ht
    · cases ht
    · rename_i hf
      split at ht
      · cases ht
      · rename_i tx pool hx
        obtain ⟨hl, rfl, _⟩ := Pool.takeTx_eq_some hx
        split at ht
        · cases ht
        · rename_i hp
          split at ht
          · rename_i hi
            have hn := h.concat (by simpa using hf) hl (by simpa using hp) hi
            have ha := ih hn ht
            rw [append_assoc] at ha
            exact ha
          · cases ht

theorem takeTxs_eq_error {rest : List Hash} (ht : takeTxs env now st rest t = .error (why, t')) :
    ∃ pre id post u, ids ++ rest = pre ++ id :: post ∧ TakenFrom env now st pre u ∧ TakeFails st id u why t' := by
  induction rest generalizing ids t with
  | nil => cases ht
  | cons id rest ih =>
    unfold takeTxs at ht
    split at ht
    · rename_i hk
      cases ht
      exact ⟨ids, id, rest, _, rfl, h, .known hk⟩
    · rename_i hf
      split at ht
      · rename_i hn
        cases ht
        exact ⟨ids, id, rest, _, rfl, h, .unknown (Pool.takeTx_eq_none.mp hn)⟩
      · rename_i tx pool hx
        obtain ⟨hl, rfl, _⟩ := Pool.takeTx_eq_some hx
        split at ht
        · rename_i hs
          cases ht
          exact ⟨ids, id, rest, t, rfl, h, .message tx (by simpa using hf) hl hs⟩
        · rename_i hp
          split at ht
          · rename_i hi
            have hnx := h.concat (by simpa using hf) hl (by simpa using hp) hi
            obtain ⟨pre, id', post, u, heq, hu, ha⟩ := ih hnx ht
            refine ⟨pre, id', post, u, ?_, hu, ha⟩
            rw [← heq, append_assoc]
            rfl
          · cases ht
            exact ⟨ids, id, rest, t, rfl, h, .inputs tx hl⟩

end

theorem Takes.takeTxs_append {txs more : List Transaction} {rest : List Hash}
    (ht : Takes env now st (ids ++ more.map (·.hash)) (txs ++ more)) :
    takeTxs env now st (more.map (·.hash) ++ rest) { pool := st.pool.removeAll ids, txs } =
      takeTxs env now st rest
        { pool := st.pool.removeAll (ids ++ more.map (·.hash)), txs := txs ++ more } := by
  induction more generalizing ids txs with
  | nil => simp
  | cons tx more ih =>
    have hme : tx ∈ txs ++ tx :: more := by simp
    have hi : tx.hash ∈ ids ++ (tx :: more).map (·.hash) := by simp
    have hn : tx.hash ∉ ids := by
      have hd := ht.distinct
      intro hin
      exact (nodup_append.mp hd).2.2 _ hin _ mem_cons_self rfl
    have hl : (st.pool.removeAll ids).lookup tx.hash = some tx := by
      rw [Pool.lookup_removeAll, if_neg hn]
      exact ht.held tx hme
    have ha : (st.pool.removeAll ids).takeTx tx.hash =
        some (tx, st.pool.removeAll (ids ++ [tx.hash])) := by
      unfold Pool.takeTx
      rw [hl, Option.map_some, Pool.removeAll_concat]
    have hp : inputsAccepted env now st txs.length tx = true :=
      ht.inputs txs.length tx (by simp)
    have hx : Takes env now st ((ids ++ [tx.hash]) ++ more.map (·.hash)) ((txs ++ [tx]) ++ more) := by
      simpa using ht
    have hr := ih hx
    rw [append_assoc, append_assoc] at hr
    rw [map_cons, cons_append, takeTxs, ht.fresh _ hi]
    simp only [ha, ht.plain tx hme, hp]
    exact hr

end

section
variable (env : Env) (fuel : Nat) (now : UInt64) (st : Blockchain) (b : Block)

/-- A call that returns false leaves the pool with the transactions it had. -/
def PoolAtomic : Prop :=
  ∀ why st', handleBlockToMainChain env fuel now st b = .rejected why st' →
    ∀ id, st'.pool.has id = st.pool.has id

structure RefusedData (weight fee : UInt64) (data : SpinnerData) : Prop where
  above : env.cfg.startAmountBlocks < st.db.height
  coinbase : (validateSpinnerTransaction env st.db b st.db.height weight fee
    (alreadyGeneratedCoins st.db) (currentVersion env.cfg st.db)).isSome = true
  locked : getSpinnerTransactionLocked env fuel st.db b st.db.height = .ok (some data)
  spin : ∃ spin, getSpin env.cfg st.db data.nfo.proof.txid data.spin = .ok (some spin)
  refused : (∃ timeTo, getSpinnerData env fuel now st.db data.nfo SpinnerData.zero 0 = .error (.returnFalse timeTo)) ∨
    ∃ computed timeTo, getSpinnerData env fuel now st.db data.nfo SpinnerData.zero 0 =
      .ok (computed, timeTo) ∧ dataAgrees data computed = false

inductive LosesTransaction : Prop where
  /-- The first transaction that does not pass is a message from the pool. -/
  | message (pre post : List Hash) (id : Hash) (txs : List Transaction) (tx : Transaction)
      (header : headerRejection env now st b = none) (ids : b.txHashes = pre ++ id :: post)
      (passes : Takes env now st pre txs) (once : id ∉ pre) (fresh : st.db.txExists id = false)
      (held : st.pool.lookup id = some tx) (sms : tx.smsFromExtra.isSome = true)
  /-- All pass, one is pruned and no weight is known for the height. -/
  | pruned (txs : List Transaction) (header : headerRejection env now st b = none)
      (passes : Takes env now st b.txHashes txs) (unweighed : blockWeight st b txs = none)
  /-- All pass, there is at least one, and the spinner data is refused. -/
  | data (txs : List Transaction) (weight : UInt64) (data : SpinnerData)
      (header : headerRejection env now st b = none) (some : b.txHashes ≠ [])
      (passes : Takes env now st b.txHashes txs) (weighed : blockWeight st b txs = .some weight)
      (refused : RefusedData env fuel now st b weight (feeSummary txs) data)

end

section
variable {env : Env} {fuel : Nat} {now : UInt64} {st : Blockchain} {b : Block} {ids : List Hash}
  {t t' : Taken} {id : Hash} {txs : List Transaction} {why : Rejection} {weight fee : UInt64}
  {data : SpinnerData}

theorem TakenFrom.returnTxs (h : TakenFrom env now st ids t) : t.pool.returnTxs t.txs = st.pool := by
  refine Pool.returnTxs_eq h.takes.held ?_
  intro k hk
  rw [h.takes.hashes] at hk
  rw [h.pool, Pool.lookup_removeAll, if_neg hk]

/-- A transaction with wrong inputs is already listed when the loop stops, so
it goes back too. -/
theorem TakenFrom.returnTxs_concat {tx : Transaction} (h : TakenFrom env now st ids t)
    (ht : t.pool.lookup id = some tx) : (t.pool.remove id).returnTxs (t.txs ++ [tx]) = st.pool := by
  obtain ⟨_, _, hh⟩ := h.lookup ht
  apply Pool.returnTxs_eq (h.held_concat ht)
  intro k hk
  rw [map_append, h.takes.hashes, map_singleton, hh] at hk
  rw [h.pool, Pool.removeAll_concat, Pool.lookup_removeAll, if_neg hk]

theorem Takes.lost (h : Takes env now st ids txs) (hi : id ∈ ids) :
    st.pool.has id = true ∧ (st.pool.removeAll ids).has id = false := by
  rw [← h.hashes] at hi
  obtain ⟨tx, ht, rfl⟩ := mem_map.mp hi
  constructor
  · simp [Pool.has, h.held tx ht]
  · rw [h.hashes] at hi
    simp [Pool.has, hi]

theorem Takes.takeTxs (h : Takes env now st ids txs) (rest : List Hash) :
    takeTxs env now st (ids ++ rest) { pool := st.pool, txs := [] } =
      Gyro.takeTxs env now st rest { pool := st.pool.removeAll ids, txs } := by
  have hi := h.hashes
  subst hi
  have ha := @Takes.takeTxs_append env now st [] [] txs rest h
  simpa using ha

theorem verifySpin_refused (h : verifySpin env fuel now st.db data = .error (.inl why))
    (hh : why.givesBack = false) : (∃ spin, getSpin env.cfg st.db data.nfo.proof.txid data.spin = .ok (some spin)) ∧
      ((∃ timeTo, getSpinnerData env fuel now st.db data.nfo SpinnerData.zero 0 = .error (.returnFalse timeTo)) ∨
        ∃ computed timeTo, getSpinnerData env fuel now st.db data.nfo SpinnerData.zero 0 =
          .ok (computed, timeTo) ∧ dataAgrees data computed = false) := by
  unfold verifySpin at h
  split at h
  · cases h
  · cases h
    cases hh
  · rename_i spin hs
    refine ⟨⟨spin, hs⟩, ?_⟩
    split at h
    · rename_i timeTo hf
      exact .inl ⟨timeTo, hf⟩
    · cases h
    · rename_i computed timeTo hd
      split at h
      · cases h
      · rename_i ha
        exact .inr ⟨computed, timeTo, hd, by simpa using ha⟩

theorem verifyBlock_refused (h : verifyBlock env fuel now st.db b weight fee = .error (.inl why))
    (hh : why.givesBack = false) : ∃ data, RefusedData env fuel now st b weight fee data := by
  unfold verifyBlock at h
  split at h
  · cases h
    cases hh
  · rename_i reward hr
    split at h
    · cases h
    · cases h
      cases hh
    · rename_i data hd
      split at h
      · rename_i ha
        split at h
        · rename_i e hs
          cases h
          obtain ⟨hs, hf⟩ := verifySpin_refused hs hh
          exact ⟨data, ha, by rw [hr]; rfl, hd, hs, hf⟩
        · cases h
      · cases h

theorem RefusedData.verifyBlock (h : RefusedData env fuel now st b weight fee data) :
    ∃ why, verifyBlock env fuel now st.db b weight fee = .error (.inl why) ∧ why.givesBack = false := by
  obtain ⟨ha, hc, hl, ⟨spin, hs⟩, hr⟩ := h
  obtain ⟨reward, hrw⟩ := Option.isSome_iff_exists.mp hc
  unfold Gyro.verifyBlock verifySpin
  simp only [hrw, hl, hs]
  rw [if_pos ha]
  obtain ⟨timeTo, hf⟩ | ⟨computed, timeTo, hg, hag⟩ := hr
  · exact ⟨.noSpinnerData, by simp [hf], rfl⟩
  · exact ⟨.spinnerDataMismatch, by simp [hg, hag], rfl⟩

inductive PoolAfter (env : Env) (fuel : Nat) (now : UInt64) (st : Blockchain) (b : Block) : Pool → Prop where
  | same : PoolAfter env fuel now st b st.pool
  /-- Everything but a message transaction is back. -/
  | message (id : Hash) (tx : Transaction) (named : id ∈ b.txHashes)
      (held : st.pool.lookup id = some tx) (sms : tx.smsFromExtra.isSome = true)
      (loses : LosesTransaction env fuel now st b) :
      PoolAfter env fuel now st b (st.pool.remove id)
  /-- The transactions of the block all passed, and none is back. -/
  | dropped (txs : List Transaction) (passes : Takes env now st b.txHashes txs)
      (loses : LosesTransaction env fuel now st b) :
      PoolAfter env fuel now st b (st.pool.removeAll b.txHashes)

/-- The loop that stops gives everything back, except a message transaction. -/
theorem TakeFails.poolAfter (hf : TakeFails st id t why t') (h : TakenFrom env now st ids t)
    (header : headerRejection env now st b = none) {post : List Hash} (hi : b.txHashes = ids ++ id :: post) :
    PoolAfter env fuel now st b (t'.pool.returnTxs t'.txs) ∧ why.givesBack = true := by
  cases hf with
  | known _ =>
    rw [h.returnTxs]
    exact ⟨.same, rfl⟩
  | unknown _ =>
    rw [h.returnTxs]
    exact ⟨.same, rfl⟩
  | inputs tx ht =>
    rw [h.returnTxs_concat ht]
    exact ⟨.same, rfl⟩
  | message tx hr ht hs =>
    obtain ⟨hn, hh, _⟩ := h.lookup ht
    have hrs : (t.pool.remove id).returnTxs t.txs = st.pool.remove id := by
      refine Pool.returnTxs_eq ?_ ?_
      · intro tx' ht'
        have hne : tx'.hash ≠ id := by
          rintro rfl
          exact hn (by rw [← h.takes.hashes]; exact mem_map_of_mem ht')
        rw [Pool.lookup_remove, if_neg hne]
        exact h.takes.held tx' ht'
      · intro k hk
        rw [h.takes.hashes] at hk
        rw [h.pool, Pool.lookup_remove, Pool.lookup_remove, Pool.lookup_removeAll, if_neg hk]
    rw [hrs]
    refine ⟨.message id tx (by rw [hi]; simp) hh hs ?_, rfl⟩
    exact .message ids post id t.txs tx header hi h.takes hn hr hh hs

/-- A rejection after the loop restores the pool or drops what it has taken. -/
theorem TakenFrom.poolAfter (h : TakenFrom env now st b.txHashes t)
    (header : headerRejection env now st b = none) (hwe : blockWeight st b t.txs = some weight)
    (hv : verifyBlock env fuel now st.db b weight (feeSummary t.txs) = .error (.inl why)) :
    PoolAfter env fuel now st b (if why.givesBack then t.pool.returnTxs t.txs else t.pool) := by
  cases hh : why.givesBack with
  | true =>
    rw [h.returnTxs]
    exact .same
  | false =>
    obtain ⟨data, hr⟩ := verifyBlock_refused hv hh
    rw [h.pool]
    by_cases hn : b.txHashes = []
    · rw [hn]
      exact .same
    · exact .dropped t.txs h.takes (.data t.txs weight data header hn h.takes hwe hr)

theorem rejected_poolAfter {st' : Blockchain} (hr : handleBlockToMainChain env fuel now st b = .rejected why st') :
    PoolAfter env fuel now st b st'.pool := by
  unfold handleBlockToMainChain at hr
  split at hr
  · cases hr
    exact .same
  · rename_i header
    split at hr
    · rename_i why' t ha
      obtain ⟨pre, id, post, u, hi, hu, hf⟩ := takeTxs_eq_error takenFrom_nil ha
      obtain ⟨hp, hg⟩ := @TakeFails.poolAfter env fuel now st b _ _ _ _ _ hf hu header _ hi
      cases hr
      -- wrong inputs also record the block as invalid, which leaves the pool alone
      by_cases hwr : why = .wrongInputs
      · simpa [Blockchain.reject, hg] using hp
      · simpa [Blockchain.reject, hg] using hp
    · rename_i t ha
      have ht := takeTxs_eq_ok takenFrom_nil ha
      split at hr
      · rename_i hwe
        cases hr
        change PoolAfter env fuel now st b t.pool
        rw [ht.pool]
        exact .dropped t.txs ht.takes (.pruned t.txs header ht.takes hwe)
      · rename_i weight hwe
        dsimp only at hr
        split at hr
        · rename_i why' hv
          cases hr
          exact ht.poolAfter header hwe hv
        · cases hr
        · split at hr
          · cases hr
            change PoolAfter env fuel now st b (t.pool.returnTxs t.txs)
            rw [ht.returnTxs]
            exact .same
          · cases hr

theorem poolAtomic_of_keeps (hk : ¬ LosesTransaction env fuel now st b) : PoolAtomic env fuel now st b := by
  intro why st' hr k
  have ha := rejected_poolAfter hr
  generalize st'.pool = p at ha
  cases ha with
  | same => rfl
  | message id tx _ _ _ hl => exact absurd hl hk
  | dropped txs _ hl => exact absurd hl hk

theorem LosesTransaction.not_poolAtomic (h : LosesTransaction env fuel now st b) : ¬ PoolAtomic env fuel now st b := by
  intro ha
  cases h with
  | message pre post id txs tx header his hp ho hf hhe hsm =>
    have ht : takeTxs env now st b.txHashes { pool := st.pool, txs := [] } =
        .error (.messageTx, { pool := (st.pool.removeAll pre).remove id, txs }) := by
      rw [his, hp.takeTxs, Gyro.takeTxs, hf]
      simp [Pool.takeTx, ho, hhe, hsm]
    have hr : handleBlockToMainChain env fuel now st b = .rejected .messageTx
        (st.reject .messageTx { pool := (st.pool.removeAll pre).remove id, txs }) := by
      unfold handleBlockToMainChain
      simp [header, ht]
    have hs := ha _ _ hr id
    have hl : id ∉ txs.map (·.hash) := by rwa [hp.hashes]
    change ((((st.pool.removeAll pre).remove id).returnTxs txs).has id) = st.pool.has id at hs
    rw [Pool.has_returnTxs, decide_eq_false hl] at hs
    simp [Pool.has, hhe] at hs
  | pruned txs header hp hu =>
    have ht := hp.takeTxs []
    rw [append_nil] at ht
    have hr : handleBlockToMainChain env fuel now st b = .rejected .prunedWithoutWeight
        (st.reject .prunedWithoutWeight { pool := st.pool.removeAll b.txHashes, txs }) := by
      unfold handleBlockToMainChain
      simp [header, ht, Gyro.takeTxs, hu]
    have hn : txs.any (·.pruned) = true := by
      by_contra hno
      simp [blockWeight, hno] at hu
    obtain ⟨tx, hx, _⟩ := any_eq_true.mp hn
    have hi : tx.hash ∈ b.txHashes := by
      rw [← hp.hashes]
      exact mem_map_of_mem hx
    have hs := ha _ _ hr tx.hash
    obtain ⟨hh, hg⟩ := hp.lost hi
    rw [hh] at hs
    exact absurd (hg.symm.trans hs) (by decide)
  | data txs weight data header hnn hp hwg hrf =>
    obtain ⟨why, hv, hgi⟩ := hrf.verifyBlock
    have ht := hp.takeTxs []
    rw [append_nil] at ht
    have hr : handleBlockToMainChain env fuel now st b = .rejected why
        { st with pool := st.pool.removeAll b.txHashes, blocksTxsCheck := [] } := by
      unfold handleBlockToMainChain
      simp [header, ht, Gyro.takeTxs, hwg, hv, Blockchain.reject, hgi]
    obtain ⟨id, hi⟩ := exists_mem_of_ne_nil _ hnn
    have hs := ha _ _ hr id
    obtain ⟨hh, hg⟩ := hp.lost hi
    rw [hh] at hs
    exact absurd (hg.symm.trans hs) (by decide)

end

/-- A call that returns false leaves the pool as it was exactly when the block is none of the three
kinds. -/
theorem poolAtomic_iff (env : Env) (fuel : Nat) (now : UInt64) (st : Blockchain) (b : Block) :
    PoolAtomic env fuel now st b ↔ ¬ LosesTransaction env fuel now st b := by
  constructor
  · intro ha hl
    exact hl.not_poolAtomic ha
  · exact poolAtomic_of_keeps

namespace Sample

def message : Transaction :=
  { hash := 7, version := 2, unlockTime := 0, vin := [.toKey 0 [] 3]
    vout := [⟨0, .toKey 4⟩], extra := [.sms 0 []]
    rctSignatures := ⟨.simple, [⟨0, 0⟩], [0]⟩, weight := 50, fee := 1, pruned := false }

def messageBlock : Block := { startBlock config 1 with txHashes := [7] }

def isRejected : Outcome → Option Pool
  | .rejected _ st => some st.pool
  | _ => none

end Sample

open Sample in
/-- A block that names a message transaction is refused, and the pool no longer holds the message.
-/
theorem pool_loses_message : ¬ ∀ (env : Env) (fuel : Nat) (now : UInt64) (st : Blockchain) (b : Block),
      PoolAtomic env fuel now st b := by
  intro h
  have hr : ((run (Blockchain.accept (env config) 2) node [arrival (startBlock config 0)]).bind
      fun s => (isRejected (handleBlockToMainChain (env config) 2 1000000
        { s with pool := Pool.empty.addTx message } messageBlock)).map (·.has 7)) = some false := by
    decide +kernel
  obtain ⟨s, _, hs⟩ := Option.bind_eq_some_iff.mp hr
  obtain ⟨pool, hp, hg⟩ := Option.map_eq_some_iff.mp hs
  have ht := h (env config) 2 1000000 { s with pool := Pool.empty.addTx message } messageBlock
  unfold isRejected at hp
  split at hp
  · rename_i why st' hre
    cases hp
    have ha : st'.pool.has 7 = (Pool.empty.addTx message).has 7 := ht why st' hre 7
    rw [hg] at ha
    exact absurd ha (by decide)
  · cases hp

end Gyro
