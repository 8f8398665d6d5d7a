import Gyro.Lib.Exits
import Gyro.Lib.Runs
import Gyro.Tables

/-!
# Removing a block undoes adding it

The removals run against the order of the additions, so each finds the tables as the
matching addition left them.
-/

namespace Gyro

open Exits OrderedTable Runs List

/-- Key inputs only, or a coinbase input alone in a transaction of version 1 or 2. -/
def Transaction.Plain (tx : Transaction) : Prop :=
  (∀ i ∈ tx.vin, ∃ amount offsets k, i = .toKey amount offsets k) ∨
    (∃ height, tx.vin = [.gen height]) ∧ tx.version ≤ 2

section
variable {env : DbEnv} {tx : Transaction} {out : TxOut} {txHash prunableHash : Hash} {o o' : OutputRows}
  {r r' : TxRows} {t t' : TxTables} {tips : Bool} {height i : Nat}

theorem Transaction.Plain.isPseudoRct_eq (h : tx.Plain) : tx.isPseudoRct = (tx.hasGen && tx.version = 2) := by
  obtain hk | ⟨⟨height, hv⟩, hve⟩ := h
  · have hg : tx.hasGen = false := by
      apply any_eq_false.mpr
      intro i hi
      obtain ⟨_, _, _, rfl⟩ := hk i hi
      simp
    unfold isPseudoRct
    rw [hg]
    split
    next height hv =>
      obtain ⟨_, _, _, hy⟩ := hk (.gen height) (by simp [hv])
      cases hy
    next => simp
  · have ht : tx.version = 2 ↔ 2 ≤ tx.version :=
      ⟨fun h => by rw [h]; decide, fun h => UInt64.le_antisymm hve h⟩
    simp [isPseudoRct, hasGen, hv, ht]

theorem removeOutput_addOutput {localIndex index : Nat} {unlockTime : UInt64} {commitment : Option PublicKey}
    (h : o.addOutput height txHash out localIndex unlockTime commitment = .ok (index, o')) :
    o'.removeOutput out.amount index = .ok o := by
  unfold OutputRows.addOutput at h
  split at h
  next key ha =>
    split at h
    next => cases h
    next =>
      dsimp only at h
      split at h
      next txs outs ht ho =>
        cases h
        simp [OutputRows.removeOutput, Table.get?_append ho, Table.get?_append ht, Table.del_append ho,
          Table.del_append ht]
      next => cases h
  next => cases h

theorem removeOutputs_addOutputs (hp : tx.Plain) {outs : List TxOut} {indices : List Nat}
    (h : OutputRows.addOutputs env height txHash tx i outs o = .ok (indices, o')) :
    indices.length = outs.length ∧ o'.removeOutputs tx (outs.zip indices) = .ok o := by
  induction outs generalizing i o indices with
  | nil =>
    cases h
    exact ⟨rfl, rfl⟩
  | cons out outs ih =>
    obtain ⟨⟨index, o₁⟩, ha, h⟩ := bind_eq_ok.mp h
    obtain ⟨⟨rest, o₂⟩, hs, h⟩ := bind_eq_ok.mp h
    cases h
    obtain ⟨hl, hr⟩ := ih hs
    refine ⟨by simp [hl], ?_⟩
    have ham : (OutputRows.storedOutput env tx out i).1.amount =
        if tx.isPseudoRct then 0 else out.amount := by
      rw [hp.isPseudoRct_eq, OutputRows.storedOutput]
      split <;> rfl
    have hla : o₁.removeOutput (if tx.isPseudoRct then 0 else out.amount) index = .ok o := by
      rw [← ham]
      exact removeOutput_addOutput ha
    unfold OutputRows.removeOutputs at hr ⊢
    rw [zip_cons_cons, foldrM_cons, hr]
    exact hla

variable {spent spent' : PublicKey → Bool}

theorem addSpentKeys_eq_ok {inputs : List TxIn} (h : addSpentKeys inputs spent = .ok (some spent')) (k : PublicKey) :
    spent' k = (spent k || decide (k ∈ inputs.filterMap TxIn.keyImage?)) ∧
      (k ∈ inputs.filterMap TxIn.keyImage? → spent k = false) := by
  induction inputs generalizing spent with
  | nil =>
    cases h
    simp
  | cons input inputs ih =>
    cases input with
    | gen => exact ih h
    | toScript | toScripthash => cases h
    | toKey amount offsets image =>
      rw [filterMap_cons_some (show (TxIn.toKey amount offsets image).keyImage? = some image from rfl)]
      simp only [mem_cons]
      unfold addSpentKeys at h
      split at h
      next => cases h
      next hn =>
        obtain ⟨heq, hf⟩ := ih h
        by_cases hk : k = image
        · subst hk
          simp [heq, hn]
        · rw [Function.update_of_ne hk] at heq hf
          simp only [hk, false_or]
          exact ⟨heq, hf⟩

theorem removeSpentKeys_addSpentKeys
    (h : addSpentKeys tx.vin spent = .ok (some spent')) : removeSpentKeys tx.keyImages spent' = spent := by
  funext k
  obtain ⟨heq, hn⟩ := addSpentKeys_eq_ok h k
  unfold removeSpentKeys Transaction.keyImages
  by_cases hk : k ∈ tx.vin.filterMap TxIn.keyImage?
  · rw [hn hk]
    simp only [hk, not_true_eq_false, decide_false, Bool.and_false]
  · rw [heq]
    simp only [hk, not_false_eq_true, decide_true, decide_false, Bool.or_false, Bool.and_true]

/-! ## Rows of a transaction -/

theorem remove_addTransactionData {txId : Nat} {indices : List Nat} {r'' : TxRows}
    (hd : r.addTransactionData tips height txHash prunableHash tx = .ok (txId, r'))
    (hi : r'.addIndices txId indices = .ok r'') : r''.getPrunedTx txHash = some { tx with pruned := true } ∧
      r''.remove txHash { tx with pruned := true } = .ok (indices, r) ∧
      (tx.pruned = false → r''.getTx txHash = .ok (some tx)) := by
  unfold TxRows.addTransactionData at hd
  split at hd
  next => cases hd
  next hne =>
    split at hd
    next pruned prunable hashes hp hn hh =>
      cases hd
      unfold TxRows.addIndices at hi
      split at hi
      next outputs ho =>
        cases hi
        have hx : r.txIndices txHash = none := by simpa using hne
        have ht : r.txsPrunableTip r.txCount = none := by
          by_contra hso
          have hs := r.tip_stored _ (Option.isSome_iff_ne_none.mpr hso)
          rw [Table.get?_eq_none_of_append hp] at hs
          cases hs
        refine ⟨?_, ?_, ?_⟩
        · simp [TxRows.getPrunedTx, Table.get?_append hp]
        · have hti : Function.update (if tips then Function.update r.txsPrunableTip r.txCount (some height)
              else r.txsPrunableTip) r.txCount none = r.txsPrunableTip := by
            split <;> simp [← ht]
          have hb : Function.update (Function.update r.txIndices txHash
              (some { txId := r.txCount, unlockTime := tx.unlockTime, blockId := height })) txHash none =
              r.txIndices := by
            simp [← hx]
          have hs : r.txOutputs.append r.txCount indices = some outputs := ho
          have hde : (1 < tx.version → hashes.get? r.txCount ≠ none) ∧
              (if 1 < tx.version then hashes.del r.txCount else hashes) = r.txsPrunableHash := by
            split at hh
            next hl =>
              rw [if_pos hl, Table.get?_append hh, Table.del_append hh]
              simp
            next hf =>
              cases hh
              simp [hf]
          unfold TxRows.remove
          simp only [Function.update_self, Table.get?_append hp, Table.get?_append hs, Option.isNone_some,
            Bool.false_eq_true, if_false, Option.isNone_iff_eq_none, Option.getD_some, Table.del_append hp,
            Table.del_append hn, Table.del_append hs, hti, hb, hde.2]
          rw [if_neg (fun h => hde.1 h.1 h.2)]
        · intro hwh
          have htx : ({ tx with pruned := false } : Transaction) = tx := by
            rw [← hwh]
          simp [TxRows.getTx, Table.get?_append hp, Table.get?_append hn, hwh, htx]
      next => cases hi
    next => cases hd

theorem addSpentKeys_ne_none {inputs : List TxIn} {spent : PublicKey → Bool}
    (h : ∀ i ∈ inputs, i ≠ .toScript ∧ i ≠ .toScripthash) : addSpentKeys inputs spent ≠ .ok none := by
  induction inputs generalizing spent with
  | nil => simp [addSpentKeys]
  | cons input inputs ih =>
    have hr := fun i hi => h i (mem_cons_of_mem _ hi)
    cases input with
    | gen => exact ih hr
    | toScript => exact absurd rfl (h .toScript mem_cons_self).1
    | toScripthash => exact absurd rfl (h .toScripthash mem_cons_self).2
    | toKey amount offsets k =>
      unfold addSpentKeys
      split
      · simp
      · exact ih hr

theorem Transaction.Plain.supported (h : tx.Plain) : ∀ i ∈ tx.vin, i ≠ .toScript ∧ i ≠ .toScripthash := by
  obtain hk | ⟨⟨height, hv⟩, _⟩ := h
  · intro i hi
    obtain ⟨_, _, _, rfl⟩ := hk i hi
    simp
  · simp [hv]

theorem removeTransaction_addTransaction (hp : tx.Plain) (h : t.addTransaction env tips height txHash tx = .ok t') :
    t'.removeTransaction txHash = .ok t ∧ (tx.pruned = false → t'.txs.getTx txHash = .ok (some tx)) := by
  unfold TxTables.addTransaction at h
  split at h
  next => cases h
  next hn => exact absurd hn (addSpentKeys_ne_none hp.supported)
  next spentKeys hk =>
    obtain ⟨⟨txId, txs⟩, hd, h⟩ := bind_eq_ok.mp h
    obtain ⟨⟨indices, outputs⟩, ho, h⟩ := bind_eq_ok.mp h
    obtain ⟨txs', hi, h⟩ := bind_eq_ok.mp h
    cases h
    obtain ⟨hr, hre, hh⟩ := remove_addTransactionData hd hi
    obtain ⟨hl, hu⟩ := removeOutputs_addOutputs hp ho
    refine ⟨?_, hh⟩
    have ho' : outputs.removeOutputs { tx with pruned := true } (tx.vout.zip indices) = .ok t.outputs := hu
    have hs : removeSpentKeys ({ tx with pruned := true } : Transaction).keyImages spentKeys = t.spentKeys :=
      removeSpentKeys_addSpentKeys hk
    unfold TxTables.removeTransaction
    simp [hr, hre, hl, ho', hs]

theorem popTransactions_append (hashes hashes' : List Hash) (t : TxTables) :
    TxTables.popTransactions (hashes ++ hashes') t = (do
      let (txs, t) ← TxTables.popTransactions hashes t let (txs', t) ← TxTables.popTransactions hashes' t
      .ok (txs ++ txs', t)) := by
  induction hashes generalizing t with
  | nil =>
    simp only [nil_append, TxTables.popTransactions, ok_bind]
    cases TxTables.popTransactions hashes' t <;> rfl
  | cons h hashes ih =>
    simp only [cons_append, TxTables.popTransactions, ih, bind_assoc]
    cases t.txs.getTx h with
    | error e => rfl
    | ok found =>
      cases found <;> cases t.txs.getPrunedTx h <;> simp [bind_assoc]

theorem popTransactions_addTransactions {txs : List (Hash × Transaction)}
    (hp : ∀ p ∈ txs, p.2.Plain ∧ p.2.pruned = false) (h : TxTables.addTransactions env tips height txs t = .ok t') :
    TxTables.popTransactions (txs.map Prod.fst).reverse t' = .ok ((txs.map Prod.snd).reverse, t) := by
  induction txs generalizing t with
  | nil =>
    cases h
    rfl
  | cons p txs ih =>
    obtain ⟨t₁, hf, hr⟩ := bind_eq_ok.mp h
    have ho := ih (fun q hq => hp q (mem_cons_of_mem _ hq)) hr
    obtain ⟨hp₁, hh⟩ := hp p mem_cons_self
    obtain ⟨hre, hg⟩ := removeTransaction_addTransaction hp₁ hf
    rw [map_cons, reverse_cons, popTransactions_append, ho]
    simp [TxTables.popTransactions, hg hh, hre]

/-- The tables are the same; only the heights of the spinners may differ. -/
structure Tables.Same (t t' : Tables) : Prop where
  blocks : t.blocks.blocks = t'.blocks.blocks
  blockInfo : t.blocks.blockInfo = t'.blocks.blockInfo
  blockHeights : t.blocks.blockHeights = t'.blocks.blockHeights
  rows : t.rows = t'.rows
  pruning : t.pruning = t'.pruning

theorem Tables.Same.trans {a b c : Tables} (ha : a.Same b) (hb : b.Same c) : a.Same c :=
  ⟨ha.blocks.trans hb.blocks, ha.blockInfo.trans hb.blockInfo, ha.blockHeights.trans hb.blockHeights,
    ha.rows.trans hb.rows, ha.pruning.trans hb.pruning⟩

theorem remove_addBlockRows {b b' : BlockRows} {e : BlockEntry} {longTermBlockWeight numRctOuts : UInt64}
    (h : b.add e longTermBlockWeight numRctOuts = .ok b') :
    b'.height = b.height + 1 ∧ b'.blocks.get? b.height = some e.block ∧
      ∃ r, b'.remove = .ok r ∧ r.blocks = b.blocks ∧ r.blockInfo = b.blockInfo ∧ r.blockHeights = b.blockHeights := by
  unfold BlockRows.add at h
  split at h
  next => cases h
  next hn =>
    split at h
    next => cases h
    next =>
      split at h
      next => cases h
      next =>
        dsimp only at h
        split at h
        next => cases h
        next cumRct _ =>
          split at h
          next blocks blockInfo hb hi =>
            cases h
            have hx : b.blockHeights e.block.hash = none := by simpa using hn
            have hc := Table.count_append hb
            refine ⟨hc, Table.get?_append hb, ?_⟩
            have ha : Function.update (Function.update b.blockHeights e.block.hash (some b.blocks.count))
                e.block.hash none = b.blockHeights := by
              simp [← hx]
            unfold BlockRows.height at hb hi
            simp [BlockRows.remove, BlockRows.height, hc, ha, Table.get?_append hi,
              Table.del_append hb, Table.del_append hi]
          next => cases h

/-- The transactions of a block are whole and plain. -/
structure BlockEntry.Plain (e : BlockEntry) : Prop where
  spinnerTx : e.block.spinnerTx.Plain
  txs : ∀ tx ∈ e.txs, tx.Plain ∧ tx.pruned = false

end

theorem popBlock_addBlock {env : DbEnv} {t t' : Tables} {e : BlockEntry} {longTermBlockWeight : UInt64}
    (hplain : e.Plain) (h : t.addBlock env e longTermBlockWeight = .ok t') :
    ∃ t'', t'.popBlock = .ok (e.block, e.txs.reverse, t'') ∧ t''.Same t := by
  unfold Tables.addBlock at h
  split at h
  next => cases h
  next hsi =>
    obtain ⟨rows₁, hs, h⟩ := bind_eq_ok.mp h
    obtain ⟨rows₂, ht, h⟩ := bind_eq_ok.mp h
    obtain ⟨blocks, hb, h⟩ := bind_eq_ok.mp h
    cases h
    obtain ⟨hh, ho, r, hre, hr, hi, hhe⟩ := remove_addBlockRows hb
    obtain ⟨hs', _⟩ := removeTransaction_addTransaction hplain.spinnerTx hs
    have hpo : TxTables.popTransactions e.block.txHashes.reverse rows₂ = .ok (e.txs.reverse, rows₁) := by
      have := popTransactions_addTransactions (fun p hp => hplain.txs p.2 (of_mem_zip hp).2) ht
      rwa [map_fst_zip (by omega), map_snd_zip (by omega)] at this
    refine ⟨{ t with blocks := r, rows := t.rows }, ?_, hr, hi, hhe, rfl, rfl⟩
    unfold Tables.popBlock Tables.height
    simp [hh, ho, hre, hpo, hs']

/-- Popping a block gives the tables back, with the block and its transactions, the last one first.
-/
theorem pop_block_undoes_add_block {env : DbEnv} {t t' : Tables} {e : BlockEntry} {longTermBlockWeight : UInt64}
    (hplain : e.Plain) (h : t.addBlock env e longTermBlockWeight = .ok t') :
    ∃ t'', t'.popBlock = .ok (e.block, e.txs.reverse, t'') ∧ t''.Same t ∧ t''.height = t.height ∧
      t''.rows.txs.txCount = t.rows.txs.txCount ∧
      (∀ amount, t''.rows.outputs.nextIndex amount = t.rows.outputs.nextIndex amount) ∧
      ∀ k, t''.rows.spentKeys k = t.rows.spentKeys k := by
  obtain ⟨t'', hp, hs⟩ := popBlock_addBlock hplain h
  refine ⟨t'', hp, hs, ?_, ?_⟩
  · rw [Tables.height, BlockRows.height, hs.blocks]
    rfl
  · rw [hs.rows]
    exact ⟨rfl, fun _ => rfl, fun _ => rfl⟩

/-! ## Stacks of blocks -/

theorem Tables.Same.popBlock {t t' s : Tables} {b : Block} {txs : List Transaction} (hs : t.Same t')
    (h : t'.popBlock = .ok (b, txs, s)) : ∃ s', t.popBlock = .ok (b, txs, s') ∧ s'.Same s := by
  unfold Tables.popBlock Tables.height BlockRows.height at h ⊢
  rw [hs.blocks, hs.rows]
  split at h
  next => cases h
  next top _ =>
    obtain ⟨blocks, hre, h⟩ := bind_eq_ok.mp h
    obtain ⟨⟨txs', rows⟩, hp, h⟩ := bind_eq_ok.mp h
    obtain ⟨rows', hsp, h⟩ := bind_eq_ok.mp h
    cases h
    have hr' : ∃ r, t.blocks.remove = .ok r ∧ r.blocks = blocks.blocks ∧ r.blockInfo = blocks.blockInfo ∧
        r.blockHeights = blocks.blockHeights := by
      unfold BlockRows.remove BlockRows.height at hre ⊢
      rw [hs.blocks, hs.blockInfo, hs.blockHeights]
      split at hre
      next => cases hre
      next hps =>
        split at hre
        next => cases hre
        next info hi =>
          split at hre
          next => cases hre
          next hf =>
            cases hre
            simp [hps, hf]
    obtain ⟨r, hr, hb, hi, hh⟩ := hr'
    refine ⟨{ t with blocks := r, rows := rows' }, ?_, hb, hi, hh, rfl, hs.pruning⟩
    simp [hr, hp, hsp]

def Tables.push (env : DbEnv) (t : Tables) (e : BlockEntry × UInt64) : Option Tables :=
  (t.addBlock env e.1 e.2).toOption

def Tables.popBlocks : Nat → Tables → Except DbError (List (Block × List Transaction) × Tables)
  | 0, t => .ok ([], t)
  | n + 1, t => do
    let (b, txs, t) ← t.popBlock
    let (rest, t) ← popBlocks n t
    .ok ((b, txs) :: rest, t)

theorem Tables.Same.popBlocks {t t' s : Tables} {n : Nat} {popped : List (Block × List Transaction)}
    (hs : t.Same t') (h : t'.popBlocks n = .ok (popped, s)) : ∃ s', t.popBlocks n = .ok (popped, s') ∧ s'.Same s := by
  induction n generalizing t t' popped with
  | zero =>
    cases h
    exact ⟨t, rfl, hs⟩
  | succ n ih =>
    obtain ⟨⟨b, txs, u⟩, hp, h⟩ := bind_eq_ok.mp h
    obtain ⟨⟨rest, w⟩, hr, h⟩ := bind_eq_ok.mp h
    cases h
    obtain ⟨u', hp', hs'⟩ := hs.popBlock hp
    obtain ⟨s', hr', hs''⟩ := ih hs' hr
    exact ⟨s', by simp [Tables.popBlocks, hp', hr'], hs''⟩

theorem popBlocks_undo {env : DbEnv} {t t' : Tables} {es : List (BlockEntry × UInt64)}
    (hp : ∀ e ∈ es, e.1.Plain) (h : run (Tables.push env) t es = some t') :
    ∃ t'', t'.popBlocks es.length = .ok (es.reverse.map fun e => (e.1.block, e.1.txs.reverse), t'') ∧ t''.Same t := by
  induction es using List.reverseRecOn generalizing t' with
  | nil =>
    cases h
    exact ⟨t, rfl, rfl, rfl, rfl, rfl, rfl⟩
  | append_singleton es e ih =>
    obtain ⟨u, w, hs, he, hn⟩ := run_split h
    cases hn
    obtain ⟨u', ho, ha⟩ := popBlock_addBlock (hp e (by simp)) (toOption_eq_some.mp he)
    obtain ⟨t'', hpp, hs'⟩ := ih (fun e he => hp e (mem_append_left _ he)) hs
    obtain ⟨s, hp', hs''⟩ := ha.popBlocks hpp
    refine ⟨s, ?_, hs''.trans hs'⟩
    rw [length_append, length_singleton, Tables.popBlocks, ho]
    simp [hp']

/-! ## A block of two transactions -/

namespace Sample

def plainEnv : DbEnv := { prunableHash := fun tx => tx.hash + 1, zeroCommit := fun _ => 5 }

def emptyTables : Tables where
  blocks := { blocks := .empty, blockInfo := .empty, blockHeights := fun _ => none, spinnerHeights := fun _ => none }
  rows :=
    { txs :=
        { txsPruned := .empty, txsPrunable := .empty, txsPrunableHash := .empty, txsPrunableTip := fun _ => none
          txIndices := fun _ => none, txOutputs := .empty, tip_stored := by simp }
      outputs := { outputTxs := .empty, outputAmounts := fun _ => .empty }
      spentKeys := fun _ => false }
  pruning := false

def ringTx (id : Hash) (image : PublicKey) (pruned : Bool) : Transaction :=
  { hash := id, version := 2, unlockTime := 0, vin := [.toKey 0 [1] image], vout := [⟨0, .toKey 4⟩, ⟨0, .toKey 6⟩]
    extra := [], rctSignatures := { type := .bulletproof2, ecdhInfo := [], outPk := [21, 22] }
    weight := 1500, fee := 10, pruned }

def pairEntry (pruned : Bool) : BlockEntry where
  block :=
    { hash := 100, majorVersion := 1, minorVersion := 1, timestamp := 0, prevId := nullHash
      spinnerTx :=
        { hash := 101, version := 1, unlockTime := 60, vin := [.gen 0], vout := [⟨50, .toKey 9⟩], extra := []
          rctSignatures := .null, weight := 100, fee := 0, pruned := false }
      txHashes := [102, 103] }
  txs := [ringTx 102 11 false, ringTx 103 12 pruned]
  weight := 3100
  coins := 50
  gyro := GyroType.unit
  spinPublicKey := nullPkey
  spinPrevuosHeight := 0

theorem pairEntry_plain : (pairEntry false).Plain := by
  constructor
  · exact .inr ⟨⟨0, rfl⟩, by decide⟩
  · intro tx ht
    simp only [pairEntry, mem_cons, not_mem_nil, or_false] at ht
    obtain rfl | rfl := ht
    · exact ⟨.inl (by simp [ringTx]), rfl⟩
    · exact ⟨.inl (by simp [ringTx]), rfl⟩

end Sample

open Sample in
theorem pop_block_undoes_add_block_of_two : ∃ t t', emptyTables.addBlock plainEnv (pairEntry false) 3100 = .ok t ∧
      t.popBlock = .ok ((pairEntry false).block, [ringTx 103 12 false, ringTx 102 11 false], t') ∧
      t'.Same emptyTables := by
  have ha : (emptyTables.addBlock plainEnv (pairEntry false) 3100).toOption.isSome := by decide +kernel
  obtain ⟨t, ht⟩ := Option.isSome_iff_exists.mp ha
  rw [toOption_eq_some] at ht
  obtain ⟨t', hp, hs, _⟩ := pop_block_undoes_add_block pairEntry_plain ht
  exact ⟨t, t', ht, hp, hs⟩

open Sample in
theorem popBlocks_undo_of_one : ∃ t s, run (Tables.push plainEnv) emptyTables [(pairEntry false, 3100)] = some t ∧
    t.popBlocks 1 = .ok ([((pairEntry false).block, [ringTx 103 12 false, ringTx 102 11 false])], s) ∧ s.Same emptyTables := by
  have ha : (run (Tables.push plainEnv) emptyTables [(pairEntry false, 3100)]).isSome := by decide +kernel
  obtain ⟨t, ht⟩ := Option.isSome_iff_exists.mp ha
  obtain ⟨s, h⟩ := popBlocks_undo (by simpa using pairEntry_plain) ht
  exact ⟨t, s, ht, h⟩

open Sample in
/-- The second transaction of the block is handed back before the first. -/
theorem popped_transactions_reversed :
    ¬ ∀ (env : DbEnv) (t t' : Tables) (e : BlockEntry) (longTermBlockWeight : UInt64),
      t.addBlock env e longTermBlockWeight = .ok t' → ∃ t'', t'.popBlock = .ok (e.block, e.txs, t'') := by
  intro h
  have hv : ((emptyTables.addBlock plainEnv (pairEntry false) 3100).toOption.bind fun t =>
      t.popBlock.toOption.map fun r => r.2.1.map (·.hash)) = some [103, 102] := by
    decide +kernel
  obtain ⟨t, ht, hp⟩ := Option.bind_eq_some_iff.mp hv
  obtain ⟨t'', hs⟩ := h plainEnv emptyTables t (pairEntry false) 3100 (toOption_eq_some.mp ht)
  rw [hs] at hp
  have hh : (pairEntry false).txs.map (·.hash) = [103, 102] := Option.some.inj hp
  exact absurd hh (by decide +kernel)

open Sample in
/-- A block with a pruned transaction cannot be popped: its blob does not parse. -/
example : ((emptyTables.addBlock plainEnv (pairEntry true) 3100).toOption.map fun t =>
    t.popBlock.toOption.isSome) = some false := by decide +kernel

end Gyro
