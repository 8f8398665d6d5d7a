import Gyro.Replay
import Mathlib

/-!
# A failed switch and the rollback

A switch pops down to the fork, connects alternative blocks until one is rejected, pops
those and puts the old blocks back, which pass when their transactions are in the pool.
-/

namespace Gyro

open Runs Prefixes LastIndex List

def latestBlockHeight (bs : List Block) (pk : PublicKey) : UInt64 :=
  ((lastIndex (fun b => b.viewKey = pk) bs).map UInt64.ofNat).getD 0

def TruthfulBlock (below : List Block) (b : Block) : Prop :=
  b.spinnerData.nfo.prevuosHeight = latestBlockHeight below b.viewKey

instance (below : List Block) (b : Block) : Decidable (TruthfulBlock below b) :=
  inferInstanceAs (Decidable (_ = _))

def belowFork (db : Db) (prevId : Hash) : List BlockEntry :=
  db.entries.rdropWhile fun e => e.block.hash ≠ prevId

def aboveFork (db : Db) (prevId : Hash) : List BlockEntry :=
  db.entries.rtakeWhile fun e => e.block.hash ≠ prevId

structure On (low new : List BlockEntry) (hashes : List (Hash × UInt64)) (st : Blockchain) : Prop where
  entries : st.db.entries = low ++ new
  keys : st.db.KeysCarried
  index : st.db.IndexExact
  hashes : st.blocksHashCheck = hashes

structure Safe (new : List BlockEntry) (tx : Transaction) (st : Blockchain) : Prop where
  somewhere : st.pool.lookup tx.hash = some tx ∨ ∃ e ∈ new, tx ∈ e.txs
  same : ∀ e ∈ new, ∀ tx' ∈ e.txs, tx'.hash = tx.hash → tx' = tx

structure Gone (new : List BlockEntry) (id : Hash) (st : Blockchain) : Prop where
  pool : st.pool.lookup id = none
  blocks : ∀ e ∈ new, ∀ tx ∈ e.txs, tx.hash ≠ id

section
variable {env : Env} {fuel : Nat} {now : UInt64} {st : Blockchain} {b : Block} {prevId : Hash}

section
variable {st' : Blockchain} {low new : List BlockEntry} {hashes : List (Hash × UInt64)} {e : BlockEntry}
  {tx : Transaction} {id : Hash}

theorem latestHeight_eq (entries : List BlockEntry) (pk : PublicKey) :
    Db.latestHeight entries pk = latestBlockHeight (entries.map (·.block)) pk := by
  unfold Db.latestHeight latestBlockHeight
  rw [lastIndex_map]

theorem On.pop (h : On low (new ++ [e]) hashes st) (hl : low ≠ [])
    (ht : TruthfulBlock ((low ++ new).map (·.block)) e.block) :
    ∃ st', popBlockFromBlockchain st = .ok (st', e.block) ∧ On low new hashes st' ∧
      st'.pool = st.pool.returnTxs (poppedTxs e) := by
  have ha : st.db.entries.getLast? = some e := by
    rw [h.entries, ← append_assoc, List.getLast?_concat]
  have hh : ¬ st.db.height ≤ 1 := by
    rw [UInt64.le_iff_toNat_le, Db.height_toNat, h.entries]
    have hp := length_pos_iff.mpr hl
    simp only [length_append, length_cons, length_nil]
    change ¬ _ ≤ 1
    omega
  obtain ⟨⟨db, e'⟩, hr⟩ : ∃ r, st.db.removeBlock = .ok r := by
    unfold Db.removeBlock
    split
    · rename_i hn
      rw [ha] at hn
      cases hn
    · exact ⟨_, rfl⟩
  obtain ⟨hen, _⟩ := Db.removeBlock_eq_ok hr
  have hs := hen
  rw [h.entries, ← append_assoc] at hs
  obtain ⟨hd, he⟩ := append_inj' hs rfl
  cases he
  refine ⟨{ st with db, pool := st.pool.returnTxs (poppedTxs e), blocksTxsCheck := [] }, ?_, ?_, rfl⟩
  · unfold popBlockFromBlockchain
    rw [if_neg hh, hr]
  · refine ⟨hd.symm, ?_, ?_, h.hashes⟩
    · intro e' he'
      exact h.keys e' (by rw [hen]; exact mem_append_left _ he')
    · rw [Db.indexExact_remove h.keys h.index hr, latestHeight_eq, ← hd]
      exact ht

theorem Safe.pop (h : Safe (new ++ [e]) tx st) (hh : tx.pruned = false)
    (ho : tx.isCoinbase = false) (hp : st'.pool = st.pool.returnTxs (poppedTxs e)) : Safe new tx st' := by
  have hl : e ∈ new ++ [e] := mem_append_right _ mem_cons_self
  have hb : ∀ tx' ∈ poppedTxs e, tx'.hash = tx.hash → tx' = tx := by
    intro tx' ht'
    exact h.same e hl tx' (mem_reverse.mp (mem_filter.mp ht').1)
  refine ⟨?_, fun e' he' => h.same e' (mem_append_left _ he')⟩
  rw [hp]
  obtain hhe | ⟨e', he', ht⟩ := h.somewhere
  · exact .inl (Pool.lookup_returnTxs_same hb (.inl hhe))
  · obtain hn | hl := mem_append.mp he'
    · exact .inr ⟨e', hn, ht⟩
    · rw [mem_singleton.mp hl] at ht
      refine .inl (Pool.lookup_returnTxs_same hb (.inr ?_))
      refine mem_filter.mpr ⟨mem_reverse.mpr ht, ?_⟩
      rw [hh, ho]
      rfl

theorem Gone.pop (h : Gone (new ++ [e]) id st) (hp : st'.pool = st.pool.returnTxs (poppedTxs e)) : Gone new id st' := by
  refine ⟨?_, fun e' he' => h.blocks e' (mem_append_left _ he')⟩
  rw [hp, Pool.lookup_returnTxs_of_not_mem]
  · exact h.pool
  · intro hme
    obtain ⟨tx, ht, hh⟩ := mem_map.mp hme
    have hi : tx ∈ e.txs := mem_reverse.mp (mem_filter.mp ht).1
    exact h.blocks e (mem_append_right _ mem_cons_self) tx hi hh

structure PoppedTo (low new : List BlockEntry) (hashes : List (Hash × UInt64)) (st st' : Blockchain) : Prop where
  on : On low [] hashes st'
  safe : ∀ tx : Transaction, tx.pruned = false → tx.isCoinbase = false → Safe new tx st → Safe [] tx st'
  gone : ∀ id, Gone new id st → Gone [] id st'

theorem On.popUntil {stop : Db → Bool} {n : Nat} {popped : List Block} (h : On low new hashes st)
    (hl : low ≠ []) (hr : Along TruthfulBlock (low.map (·.block)) (new.map (·.block)))
    (hstp : ∀ db : Db, db.entries = low → stop db = true)
    (hgo : ∀ (db : Db) pre e, pre ++ [e] <+: new → db.entries = low ++ (pre ++ [e]) → stop db = false)
    (hn : new.length ≤ n) : ∃ st', Gyro.popUntil stop n st popped = .ok (st', new.map (·.block) ++ popped) ∧
      PoppedTo low new hashes st st' := by
  induction new using List.reverseRecOn generalizing n st popped with
  | nil =>
    have ht := hstp st.db (by rw [h.entries, append_nil])
    refine ⟨st, ?_, h, fun _ _ _ hs => hs, fun _ hg => hg⟩
    cases n with
    | zero => simp [Gyro.popUntil, ht]
    | succ n => simp [Gyro.popUntil, ht]
  | append_singleton new e ih =>
    have ht := hgo st.db new e prefix_rfl h.entries
    rw [map_append, map_singleton, along_concat, ← map_append] at hr
    obtain ⟨mid, hpop, hi, hp⟩ := h.pop hl hr.2
    rw [length_append, length_singleton] at hn
    cases n with
    | zero => omega
    | succ n =>
      obtain ⟨st', hpp, ho⟩ := @ih mid n (e.block :: popped) hi hr.1
        (fun db pre e' hpr => hgo db pre e' (hpr.trans (prefix_append _ _))) (by omega)
      refine ⟨st', ?_, ho.on, ?_, ?_⟩
      · rw [Gyro.popUntil, ht, hpop]
        simp only [hpp, map_append, map_singleton, append_assoc]
        rfl
      · intro tx hh hor hs
        exact ho.safe tx hh hor (hs.pop hh hor hp)
      · intro id hg
        exact ho.gone id (hg.pop hp)

theorem Safe.added (h : Safe new tx st) (hn : st.db.entries = low ++ new) {t : Taken}
    {weight : UInt64} {v : Verified} (ha : Accepted env fuel now st b st' t weight v) :
    Safe (new ++ [newEntry st.db b t.txs weight v]) tx st' := by
  obtain ⟨ht, hp⟩ := ha.takes
  have hs : ∀ tx' ∈ t.txs, tx'.hash = tx.hash → tx' = tx := by
    intro tx' ht' hh
    obtain hhe | ⟨e, he, hx⟩ := h.somewhere
    · have hh' := ht.held tx' ht'
      rw [hh, hhe] at hh'
      exact (Option.some.inj hh').symm
    · have hf := ht.fresh tx'.hash (by rw [← ht.hashes]; exact mem_map_of_mem ht')
      have hk : st.db.txExists tx'.hash = true := by
        refine any_eq_true.mpr ⟨e, ?_, ?_⟩
        · rw [hn]
          exact mem_append_right _ he
        · exact any_eq_true.mpr ⟨tx, mem_cons_of_mem _ hx, by simp [hh]⟩
      rw [hf] at hk
      cases hk
  constructor
  · obtain hhe | ⟨e, he, hx⟩ := h.somewhere
    · by_cases hi : tx.hash ∈ b.txHashes
      · rw [← ht.hashes] at hi
        obtain ⟨tx', ht', hh⟩ := mem_map.mp hi
        rw [hs tx' ht' hh] at ht'
        exact .inr ⟨_, mem_append_right _ mem_cons_self, ht'⟩
      · refine .inl ?_
        rw [ha.state, hp, Pool.lookup_removeAll, if_neg hi]
        exact hhe
    · exact .inr ⟨e, mem_append_left _ he, hx⟩
  · intro e he tx' ht'
    obtain hnw | hl := mem_append.mp he
    · exact h.same e hnw tx' ht'
    · rw [mem_singleton.mp hl] at ht'
      exact hs tx' ht'

theorem On.added (h : On low new hashes st) (had : handleBlockToMainChain env fuel now st b = .added st') :
    ∃ e, e.block = b ∧ On low (new ++ [e]) hashes st' ∧ ∀ tx, Safe new tx st → Safe (new ++ [e]) tx st' := by
  obtain ⟨t, weight, v, ha⟩ := handle_added had
  have hd := ha.extends.apply_add
  refine ⟨newEntry st.db b t.txs weight v, rfl, ⟨?_, ?_, ?_, ?_⟩, ?_⟩
  · rw [ha.entries, h.entries, append_assoc]
  · exact Db.keysCarried_apply h.keys hd
  · exact Db.indexExact_add h.index hd
  · rw [ha.state]
    exact h.hashes
  · intro tx hs
    exact hs.added h.entries ha

theorem On.connect {bs : List Block} (h : On low new hashes st) (ha : Gyro.connect env fuel now st bs = .all st') :
    ∃ more, more.map (·.block) = bs ∧ On low (new ++ more) hashes st' ∧
      ∀ tx, Safe new tx st → Safe (new ++ more) tx st' := by
  induction bs generalizing st new with
  | nil =>
    cases ha
    refine ⟨[], rfl, ?_, ?_⟩
    · rw [append_nil]
      exact h
    · intro tx hs
      rw [append_nil]
      exact hs
  | cons b bs ih =>
    rw [Gyro.connect] at ha
    split at ha
    · rename_i mid hd
      obtain ⟨e, rfl, hi, hs⟩ := h.added hd
      obtain ⟨more, rfl, hs', hr⟩ := ih hi ha
      refine ⟨e :: more, rfl, ?_, ?_⟩
      · rw [append_cons]
        exact hs'
      · intro tx ht
        rw [append_cons]
        exact hr tx (hs tx ht)
    · cases ha
    · cases ha

theorem WasAccepted.takes (h : WasAccepted env fuel now hashes low e) :
    ∃ at_ s, s.db.entries = low ∧ Takes env at_ s e.block.txHashes e.txs := by
  obtain ⟨at_, s, s', t, weight, v, _, hn, _, _, ha, he⟩ := h
  have ht : e.txs = t.txs := by rw [he]; rfl
  rw [ht]
  exact ⟨at_, s, hn, ha.takes.1⟩

theorem WasAccepted.fresh (h : WasAccepted env fuel now hashes low e) {e' : BlockEntry}
    (he' : e' ∈ low) (ht : tx ∈ e'.txs) : tx.hash ∉ e.block.txHashes := by
  obtain ⟨at_, s, rfl, ha⟩ := h.takes
  intro hi
  have hf := ha.fresh tx.hash hi
  have hk : s.db.txExists tx.hash = true :=
    any_eq_true.mpr ⟨e', he', any_eq_true.mpr ⟨tx, mem_cons_of_mem _ ht, by simp⟩⟩
  rw [hf] at hk
  cases hk

theorem along_fresh (h : Along (WasAccepted env fuel now hashes) low new) {e e' : BlockEntry}
    {tx' : Transaction} (he : e ∈ new) (ht : tx ∈ e.txs) (he' : e' ∈ low) (ht' : tx' ∈ e'.txs) :
    tx'.hash ≠ tx.hash := by
  induction new generalizing low with
  | nil => cases he
  | cons first new ih =>
    cases he with
    | head =>
      obtain ⟨_, _, _, ha⟩ := h.1.takes
      have hf := h.1.fresh he' ht'
      rw [← ha.hashes] at hf
      intro hh
      exact hf (mem_map.mpr ⟨tx, ht, hh.symm⟩)
    | tail _ he => exact ih h.2 he (mem_append_left _ he')

theorem along_same (h : Along (WasAccepted env fuel now hashes) low new) {e e' : BlockEntry}
    {tx' : Transaction} (he : e ∈ new) (ht : tx ∈ e.txs) (he' : e' ∈ new) (ht' : tx' ∈ e'.txs)
    (hh : tx'.hash = tx.hash) : tx' = tx := by
  induction new generalizing low with
  | nil => cases he
  | cons first new ih =>
    have hf : first ∈ low ++ [first] := by simp
    cases he with
    | head =>
      cases he' with
      | head =>
        obtain ⟨_, _, _, ha⟩ := h.1.takes
        have hn := ha.distinct
        rw [← ha.hashes] at hn
        exact inj_on_of_nodup_map hn ht' ht hh
      | tail _ he' => exact absurd hh.symm (along_fresh h.2 he' ht' hf ht)
    | tail _ he =>
      cases he' with
      | head => exact absurd hh (along_fresh h.2 he ht hf ht')
      | tail _ he' => exact ih h.2 he he'

theorem Replayable.congr (h : Replayable env now st low e)
    (hh : st'.blocksHashCheck = st.blocksHashCheck) : Replayable env now st' low e := by
  refine ⟨h.whole, h.inputs, ?_⟩
  intro hn
  unfold expectedHash
  rw [hh]
  exact h.listed hn

/-- The old blocks, with all their transactions in the pool, are put back as they were. -/
theorem On.connect_again (h : On low [] hashes st) {post : List BlockEntry}
    (hn : now.toNat + blockFutureTimeLimit.toNat < 2 ^ 64)
    (ha : Along (WasAccepted env fuel now hashes) low post) (hp : Along (Replayable env now st) low post)
    (hh : ∀ e ∈ post, ∀ tx ∈ e.txs, st.pool.lookup tx.hash = some tx) :
    ∃ st', Gyro.connect env fuel now st (post.map (·.block)) = .all st' ∧ st'.db.entries = low ++ post := by
  induction post generalizing st low with
  | nil => exact ⟨st, rfl, h.entries⟩
  | cons e post ih =>
    have hwa : WasAccepted env fuel now st.blocksHashCheck low e := by
      rw [h.hashes]
      exact ha.1
    have hrd : Ready st low e := by
      refine ⟨by rw [h.entries, append_nil], h.index, hh e mem_cons_self⟩
    obtain ⟨mid, hd, hen, _, ho, hs⟩ := hwa.again hn hrd hp.1
    obtain ⟨e', hb, hi, _⟩ := h.added hd
    have hm' : On (low ++ [e]) [] hashes mid :=
      ⟨by rw [hen, append_nil], hi.keys, hi.index, hi.hashes⟩
    have hh' : ∀ e' ∈ post, ∀ tx ∈ e'.txs, mid.pool.lookup tx.hash = some tx := by
      intro e' he' tx ht
      have hnot : tx.hash ∉ e.block.txHashes := by
        obtain ⟨_, _, _, hta⟩ := ha.1.takes
        rw [← hta.hashes]
        intro hme
        obtain ⟨tx', ht', hha⟩ := mem_map.mp hme
        exact along_fresh ha.2 he' ht (by simp) ht' hha
      rw [ho, Pool.lookup_removeAll, if_neg hnot]
      exact hh e' (mem_cons_of_mem _ he') tx ht
    obtain ⟨st', hc, hs'⟩ := ih hm' ha.2
      (hp.2.mono fun _ _ hr => hr.congr hs) hh'
    refine ⟨st', ?_, ?_⟩
    · rw [map_cons, Gyro.connect, hd]
      exact hc
    · rw [hs', append_assoc]
      rfl

theorem connect_all_held {bs : List Block} (ha : Gyro.connect env fuel now st bs = .all st') :
    ∀ b ∈ bs, ∀ id ∈ b.txHashes, st.pool.lookup id ≠ none := by
  induction bs generalizing st with
  | nil => simp
  | cons b bs ih =>
    rw [Gyro.connect] at ha
    split at ha
    · rename_i mid hd
      obtain ⟨t, weight, v, hc⟩ := handle_added hd
      obtain ⟨ht, hp⟩ := hc.takes
      intro b' hb' id hi
      cases hb' with
      | head =>
        rw [← ht.hashes] at hi
        obtain ⟨tx, hx, rfl⟩ := mem_map.mp hi
        rw [ht.held tx hx]
        exact Option.some_ne_none tx
      | tail _ hb' =>
        have hmi := ih ha b' hb' id hi
        rw [hc.state, hp, Pool.lookup_removeAll] at hmi
        intro hn
        rw [hn, ite_self] at hmi
        exact hmi rfl
    · cases ha
    · cases ha

variable {why : Rejection}

theorem rejected_db (h : handleBlockToMainChain env fuel now st b = .rejected why st') : st'.db = st.db := by
  have hs := (@handle_not_added env fuel now st b (by rw [h]; simp)).1
  rw [h] at hs
  exact hs

theorem connect_stopped_length {bs rest : List Block} (h : Gyro.connect env fuel now st bs = .stopped b rest why st') :
    st'.db.entries.length < st.db.entries.length + bs.length := by
  induction bs generalizing st with
  | nil => cases h
  | cons c bs ih =>
    rw [Gyro.connect] at h
    split at h
    · rename_i mid ha
      obtain ⟨t, weight, v, hc⟩ := handle_added ha
      have hl := ih h
      rw [hc.entries] at hl
      simp only [length_append, length_cons, length_nil] at hl ⊢
      omega
    · rename_i why' st'' hr
      cases h
      rw [rejected_db hr, length_cons]
      omega
    · cases h

theorem connect_append {pre rest : List Block} {mid : Blockchain} (h : Gyro.connect env fuel now st pre = .all mid) :
    Gyro.connect env fuel now st (pre ++ rest) = Gyro.connect env fuel now mid rest := by
  induction pre generalizing st with
  | nil =>
    cases h
    rfl
  | cons b pre ih =>
    rw [Gyro.connect] at h
    rw [cons_append, Gyro.connect]
    split at h
    · exact ih h
    · cases h
    · cases h

/-- A rejected block whose transactions all pass and of which none is given back. -/
def Drops (env : Env) (fuel : Nat) (now : UInt64) (st : Blockchain) (b : Block) : Prop :=
  LosesTransaction env fuel now st b ∧ ∃ txs, Takes env now st b.txHashes txs

theorem Drops.pool (h : Drops env fuel now st b) (hr : handleBlockToMainChain env fuel now st b = .rejected why st') :
    st'.pool = st.pool.removeAll b.txHashes := by
  obtain ⟨hl, txs, ht⟩ := h
  have ha := rejected_poolAfter hr
  generalize hp : st'.pool = p at ha
  cases ha with
  | same =>
    refine absurd ?_ hl.not_poolAtomic
    intro why' st'' hr' id
    rw [hr] at hr'
    cases hr'
    rw [hp]
  | message id tx hn hh hs _ =>
    rw [← ht.hashes] at hn
    obtain ⟨tx', ht', rfl⟩ := mem_map.mp hn
    have hh' := ht.held tx' ht'
    rw [hh] at hh'
    cases hh'
    rw [ht.plain tx ht'] at hs
    cases hs
  | dropped _ _ _ => rfl

theorem Safe.rejected (h : Safe new tx st) (hp : tx.smsFromExtra = none)
    (hr : handleBlockToMainChain env fuel now st b = .rejected why st')
    (hk : Drops env fuel now st b → tx.hash ∉ b.txHashes) : Safe new tx st' := by
  refine ⟨?_, h.same⟩
  obtain hh | hb := h.somewhere
  · refine .inl ?_
    have ha := rejected_poolAfter hr
    generalize st'.pool = p at ha
    cases ha with
    | same => exact hh
    | message id tx' _ hh' hs _ =>
      have hn : tx.hash ≠ id := by
        rintro rfl
        rw [hh] at hh'
        cases hh'
        rw [hp] at hs
        cases hs
      rw [Pool.lookup_remove, if_neg hn]
      exact hh
    | dropped txs ht hl =>
      rw [Pool.lookup_removeAll, if_neg (hk ⟨hl, txs, ht⟩)]
      exact hh
  · exact .inr hb

theorem On.rejected (h : On low new hashes st) (hr : handleBlockToMainChain env fuel now st b = .rejected why st') :
    On low new hashes st' := by
  have hd := rejected_db hr
  have hh := @handle_blocksHashCheck env fuel now st b
  rw [hr] at hh
  refine ⟨by rw [hd]; exact h.entries, by rw [hd]; exact h.keys, by rw [hd]; exact h.index, ?_⟩
  exact hh.trans h.hashes

end

/-- No popped block misstates its spinner's previous height, and the old transactions can be taken
again. -/
structure Restorable (env : Env) (now : UInt64) (st : Blockchain) (prevId : Hash) (blocks : List Block) : Prop where
  clock : now.toNat + blockFutureTimeLimit.toNat < 2 ^ 64
  truthful : Along TruthfulBlock ((belowFork st.db prevId).map (·.block))
    ((aboveFork st.db prevId).map (·.block))
  alternatives : Along TruthfulBlock ((belowFork st.db prevId).map (·.block)) blocks
  replayable : Along (Replayable env now st) (belowFork st.db prevId) (aboveFork st.db prevId)
  ordinary : ∀ e ∈ aboveFork st.db prevId, ∀ tx ∈ e.txs, tx.isCoinbase = false

instance (env : Env) (now : UInt64) (st : Blockchain) (prevId : Hash) (blocks : List Block) :
    Decidable (Restorable env now st prevId blocks) :=
  decidable_of_iff (now.toNat + blockFutureTimeLimit.toNat < 2 ^ 64 ∧
      Along TruthfulBlock ((belowFork st.db prevId).map (·.block)) ((aboveFork st.db prevId).map (·.block)) ∧
      Along TruthfulBlock ((belowFork st.db prevId).map (·.block)) blocks ∧
      Along (Replayable env now st) (belowFork st.db prevId) (aboveFork st.db prevId) ∧
      ∀ e ∈ aboveFork st.db prevId, ∀ tx ∈ e.txs, tx.isCoinbase = false)
    ⟨fun ⟨h₁, h₂, h₃, h₄, h₅⟩ => ⟨h₁, h₂, h₃, h₄, h₅⟩,
      fun h => ⟨h.clock, h.truthful, h.alternatives, h.replayable, h.ordinary⟩⟩

section
variable {blocks : List Block}

theorem fork_append (db : Db) (prevId : Hash) : db.entries = belowFork db prevId ++ aboveFork db prevId :=
  (rdropWhile_append_rtakeWhile).symm

theorem belowFork_last (h : st.db.blockExists prevId = true) :
    ∃ pre e, belowFork st.db prevId = pre ++ [e] ∧ e.block.hash = prevId := by
  have hn : belowFork st.db prevId ≠ [] := by
    obtain ⟨e, he, hi⟩ := any_eq_true.mp h
    intro hni
    have ha := rdropWhile_eq_nil_iff.mp hni e he
    simp only [decide_eq_true_eq] at ha hi
    exact ha hi
  refine ⟨_, _, (dropLast_append_getLast hn).symm, ?_⟩
  have hl := rdropWhile_last_not _ _ hn
  simp only [decide_eq_true_eq, ne_eq, not_not] at hl
  exact hl

theorem Validated.popToFork (hs : Validated env fuel now st) (hx : st.db.blockExists prevId = true)
    (hr : Restorable env now st prevId blocks) :
    ∃ popped, popUntil (fun db => db.topBlockHash = prevId) st.db.entries.length st [] =
        .ok (popped, (aboveFork st.db prevId).map (·.block)) ∧
      PoppedTo (belowFork st.db prevId) (aboveFork st.db prevId) st.blocksHashCheck st popped := by
  obtain ⟨pre, last, hl, ha⟩ := belowFork_last hx
  have ho : On (belowFork st.db prevId) (aboveFork st.db prevId) st.blocksHashCheck st :=
    ⟨fork_append st.db prevId, hs.keys, hs.index, rfl⟩
  have hln : (aboveFork st.db prevId).length ≤ st.db.entries.length := by
    have hap := congrArg List.length (fork_append st.db prevId)
    rw [length_append] at hap
    omega
  have hp := @On.popUntil st _ _ _ (fun db => db.topBlockHash = prevId) st.db.entries.length []
    ho (by rw [hl]; simp) hr.truthful ?_ ?_ hln
  · rw [append_nil] at hp
    exact hp
  · intro db hd
    rw [decide_eq_true_eq, Db.topBlockHash, hd, hl, List.getLast?_concat]
    exact ha
  · intro db pre e hpr hd
    have he : e ∈ aboveFork st.db prevId := hpr.subset (by simp)
    have hn := mem_rtakeWhile_imp he
    rw [decide_eq_true_eq] at hn
    rw [decide_eq_false_iff_not, Db.topBlockHash, hd, ← append_assoc, List.getLast?_concat]
    exact hn

theorem On.popToHeight {low new : List BlockEntry} {hashes : List (Hash × UInt64)}
    (h : On low new hashes st) (hl : low ≠ []) (ht : Along TruthfulBlock (low.map (·.block)) (new.map (·.block))) :
    ∃ st', Gyro.popUntil (fun db => db.height = UInt64.ofNat low.length) st.db.entries.length st [] =
        .ok (st', new.map (·.block)) ∧ PoppedTo low new hashes st st' := by
  have hln : st.db.entries.length = low.length + new.length := by
    rw [h.entries, length_append]
  have hp := @On.popUntil st _ _ _ (fun db => db.height = UInt64.ofNat low.length)
    st.db.entries.length [] h hl ht ?_ ?_ (by omega)
  · rw [append_nil] at hp
    exact hp
  · intro db hd
    rw [decide_eq_true_eq, Db.height, hd]
  · intro db pre e _ hd
    rw [decide_eq_false_iff_not]
    intro hh
    have hn := congrArg UInt64.toNat hh
    have hbound := st.db.bounded
    rw [Db.height_toNat, hd, UInt64.toNat_ofNat_of_lt' (by change _ < 2 ^ 64; omega)] at hn
    simp only [length_append, length_cons, length_nil] at hn
    omega

end

def RejectsAt (env : Env) (fuel : Nat) (now : UInt64) (st : Blockchain) (chain : List AltBlock)
    (s : Blockchain) (b : Block) : Prop :=
  ∃ front more popped old pre rest why after, chain = front :: more ∧
    st.db.blockExists front.block.prevId = true ∧
    popUntil (fun db => db.topBlockHash = front.block.prevId) st.db.entries.length st [] =
      .ok (popped, old) ∧
    chain.map (·.block) = pre ++ b :: rest ∧ connect env fuel now popped pre = .all s ∧
    handleBlockToMainChain env fuel now s b = .rejected why after

def Db.hashesAndGyros (db : Db) : List (Hash × GyroType) := db.entries.map fun e => (e.block.hash, e.gyro)

def DropsOld (env : Env) (fuel : Nat) (now : UInt64) (st : Blockchain) (prevId : Hash)
    (s : Blockchain) (b : Block) : Prop :=
  Drops env fuel now s b ∧
    ∃ e ∈ aboveFork st.db prevId, ∃ id ∈ e.block.txHashes, id ∈ b.txHashes

structure FailedSwitch (env : Env) (fuel : Nat) (now : UInt64) (st : Blockchain) (prevId : Hash)
    (s : Blockchain) (b : Block) (popped after back : Blockchain) (connected : List BlockEntry) : Prop where
  toFork : PoppedTo (belowFork st.db prevId) (aboveFork st.db prevId) st.blocksHashCheck st popped
  entries : s.db.entries = belowFork st.db prevId ++ connected
  safe : ∀ tx, Safe [] tx popped → Safe connected tx s
  rejected : ∃ why, handleBlockToMainChain env fuel now s b = .rejected why after
  again : PoppedTo (belowFork st.db prevId) connected st.blocksHashCheck after back

section
variable {s : Blockchain} {chain : List AltBlock} {front : AltBlock} {store : Blockchain → Block → AltOutcome}
  {discard : Bool}

theorem discardInvalid_db (st : Blockchain) (bs : List Block) : (st.discardInvalid bs).db = st.db := by
  induction bs generalizing st with
  | nil => rfl
  | cons b bs ih => exact ih _

/-- How a switch with a rejected block ends: as the old blocks put back on the
fork end. -/
theorem RejectsAt.failedSwitch (h : RejectsAt env fuel now st chain s b) (hf : chain.head? = some front)
    (hs : Validated env fuel now st) (hr : Restorable env now st front.block.prevId (chain.map (·.block))) :
    ∃ popped after back connected rest,
      FailedSwitch env fuel now st front.block.prevId s b popped after back connected ∧
      switchToAlternativeBlockchain env fuel now store st chain discard =
        match connect env fuel now back ((aboveFork st.db front.block.prevId).map (·.block)) with
        | .all st' => .switchFailed (st'.discardInvalid (b :: rest))
        | .stopped _ _ _ st' => .switchFailed (st'.discardInvalid (b :: rest))
        | .raised f st' => .raised f st' := by
  obtain ⟨front', more, popped, old, pre, rest, why, after, rfl, hx, hp, hb, hpr,
    hre⟩ := h
  cases hf
  obtain ⟨popped', hp', ht⟩ := hs.popToFork hx hr
  rw [hp] at hp'
  cases hp'
  obtain ⟨connected, hc, ho, hsa⟩ := ht.on.connect hpr
  have ha := ho.rejected hre
  have hl : belowFork st.db front.block.prevId ≠ [] := by
    obtain ⟨_, _, hl, _⟩ := belowFork_last hx
    rw [hl]
    simp
  have htr : Along TruthfulBlock ((belowFork st.db front.block.prevId).map (·.block))
      (connected.map (·.block)) := by
    have hat := hr.alternatives
    rw [hb, along_append] at hat
    rw [hc]
    exact hat.1
  obtain ⟨back, hba, ht'⟩ := ha.popToHeight hl htr
  refine ⟨popped, after, back, connected, rest, ⟨ht, ho.entries, ?_, ⟨why, hre⟩, ht'⟩, ?_⟩
  · intro tx htx
    exact hsa tx htx
  · have hso : connect env fuel now popped ((front :: more).map (·.block)) =
        .stopped b rest why after := by
      rw [hb, connect_append hpr, connect, hre]
    have hh : popped.db.height = UInt64.ofNat (belowFork st.db front.block.prevId).length := by
      rw [Db.height, ht.on.entries, append_nil]
    have hnot : ¬ after.db.height < popped.db.height := by
      rw [UInt64.lt_iff_toNat_lt, Db.height_toNat, Db.height_toNat, ha.entries, ht.on.entries]
      simp only [length_append, length_nil]
      omega
    unfold switchToAlternativeBlockchain rollbackBlockchainSwitching
    simp only [hx, hp, hso, not_true_eq_false, if_false, hnot]
    rw [hh]
    simp only [hba]
    cases connect env fuel now back ((aboveFork st.db front.block.prevId).map (·.block)) with
    | all st' => rfl
    | stopped _ _ _ st' => rfl
    | raised f st' => rfl

variable {popped after back : Blockchain} {connected : List BlockEntry} {blocks : List Block}

variable (h : FailedSwitch env fuel now st prevId s b popped after back connected)
include h

theorem FailedSwitch.held (hst : Validated env fuel now st) (hr : Restorable env now st prevId blocks)
    (hk : ¬ DropsOld env fuel now st prevId s b) :
    ∀ e ∈ aboveFork st.db prevId, ∀ tx ∈ e.txs, back.pool.lookup tx.hash = some tx := by
  have ha := hst.accepted
  rw [fork_append st.db prevId, along_append] at ha
  intro e he tx ht
  obtain ⟨_, hp⟩ := hr.replayable.of_mem he
  obtain ⟨_, hwa⟩ := ha.2.of_mem he
  obtain ⟨_, _, _, hta⟩ := hwa.takes
  have hh := hp.whole tx ht
  have ho := hr.ordinary e he tx ht
  have hsta : Safe (aboveFork st.db prevId) tx st :=
    ⟨.inr ⟨e, he, ht⟩, fun e' he' tx' ht' => along_same ha.2 he ht he' ht'⟩
  have hs : Safe connected tx s := h.safe tx (h.toFork.safe tx hh ho hsta)
  obtain ⟨why, hre⟩ := h.rejected
  have hf : Safe connected tx after := by
    refine hs.rejected (hta.plain tx ht) hre ?_
    intro hd hi
    refine hk ⟨hd, e, he, tx.hash, ?_, hi⟩
    rw [← hta.hashes]
    exact mem_map_of_mem ht
  obtain hhe | ⟨_, hn, _⟩ := (h.again.safe tx hh ho hf).somewhere
  · exact hhe
  · cases hn

theorem FailedSwitch.lost (hd : Drops env fuel now s b) {id : Hash} (hi : id ∈ b.txHashes) :
    back.pool.lookup id = none := by
  obtain ⟨why, hr⟩ := h.rejected
  obtain ⟨txs, ht⟩ := hd.2
  have hg : Gone connected id after := by
    constructor
    · rw [hd.pool hr, Pool.lookup_removeAll, if_pos hi]
    · intro e he tx hx hh
      have hf := ht.fresh id hi
      have hk : s.db.txExists id = true := by
        refine any_eq_true.mpr ⟨e, ?_, ?_⟩
        · rw [h.entries]
          exact mem_append_right _ he
        · exact any_eq_true.mpr ⟨tx, mem_cons_of_mem _ hx, by simp [hh]⟩
      rw [hf] at hk
      cases hk
  exact (h.again.gone id hg).pool

end

end

namespace Sample

def payment : Transaction :=
  { hash := 7777, version := 2, unlockTime := 0, vin := [.toKey 0 [] 3]
    vout := [⟨0, .toKey 4⟩], extra := []
    rctSignatures := ⟨.simple, [⟨0, 0⟩], [0]⟩, weight := 50, fee := 0, pruned := false }

def payingBlock (id : Nat) (reward : UInt64) (data : SpinnerData) : Block :=
  { forkBlock id (blockId 4) 5 reward data with txHashes := [payment.hash] }

def paid : Block := payingBlock 2006 39997744859481 (forkData (spinner 2 5002))

def shortReward : Block := payingBlock 2012 39997744859480 (forkData (spinner 1 5001))

def falseInterval : Block :=
  payingBlock 2010 39997744859481 { forkData (spinner 1 5001) with interval := 133 }

def paidOps (alternative : Block) : List NodeOp :=
  startOps ++ [.touch (Pool.empty.addTx payment) [] [], .handle clock paid, .store alternative]

def firstRejected (st : Blockchain) (front : AltBlock) : Option (Blockchain × Blockchain) :=
  match popUntil (fun db => db.topBlockHash = front.block.prevId) st.db.entries.length st [] with
  | .error _ => none
  | .ok (popped, _) =>
    match handleBlockToMainChain (env forkConfig) 3 clock popped front.block with
    | .rejected _ after => some (popped, after)
    | _ => none

theorem firstRejected_eq_some {st s after : Blockchain} {front : AltBlock}
    (hx : st.db.blockExists front.block.prevId = true) (h : firstRejected st front = some (s, after)) :
    RejectsAt (env forkConfig) 3 clock st [front] s front.block ∧
      ∃ why, handleBlockToMainChain (env forkConfig) 3 clock s front.block = .rejected why after := by
  unfold firstRejected at h
  split at h
  · cases h
  · rename_i popped old hp
    split at h
    · rename_i why after' hr
      cases h
      refine ⟨?_, why, hr⟩
      exact ⟨front, [], s, old, [], [], why, after, rfl, hx, hp, rfl, rfl, hr⟩
    · cases h

theorem paidOps_inOrder {alternative : Block} {st : Blockchain}
    (h : run (nodeStep (env forkConfig) 3) node (paidOps alternative) = some st) :
    ReachedInOrder (env forkConfig) 3 clock st := by
  refine ⟨node, paidOps alternative, ⟨rfl, fun _ => rfl⟩, h, everyStep_of_forall ?_⟩
  intro op ho u
  simp only [paidOps, startOps, mem_append, mem_map, mem_cons, not_mem_nil, or_false] at ho
  obtain ⟨_, _, rfl⟩ | rfl | rfl | rfl := ho
  · exact UInt64.le_refl clock
  · trivial
  · exact UInt64.le_refl clock
  · trivial

def switchTo (st : Blockchain) (front : AltBlock) : AltOutcome :=
  switchToAlternativeBlockchain (env forkConfig) 3 clock (handleAlternativeBlock (env forkConfig) 3 clock 3)
    st [front] false

def failedState : AltOutcome → Option Blockchain
  | .switchFailed st => some st
  | _ => none

end Sample

end Gyro
