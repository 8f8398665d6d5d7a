import Gyro.Db
import Gyro.Lib.OrderedTable

/-!
# The tables of the database

`BlockchainDB` and `BlockchainLMDB`: `add_block` numbers every transaction and output of
a block, `pop_block` walks them backwards. The prunable part of a transaction is a row
of its own, empty for a pruned one.
-/

namespace Gyro

open OrderedTable

/-- The hash of the prunable part, and the commitment with the identity mask. -/
structure DbEnv where
  prunableHash : Transaction → Hash
  zeroCommit : UInt64 → PublicKey

namespace Transaction

def hasGen (tx : Transaction) : Bool :=
  tx.vin.any fun
    | .gen _ => true
    | _ => false

def isPseudoRct (tx : Transaction) : Bool :=
  2 ≤ tx.version && match tx.vin with
    | [.gen _] => true
    | _ => false

def hasPrunable (tx : Transaction) : Bool :=
  if tx.version = 1 then
    tx.vin.any fun
      | .toKey _ offsets _ => offsets.length ≠ 0
      | _ => false
  else tx.vin ≠ [] && tx.rctSignatures.type ≠ .null

end Transaction

structure OutKey where
  outputId : Nat
  pubkey : PublicKey
  unlockTime : UInt64
  height : Nat
  commitment : Option PublicKey
  deriving DecidableEq

structure OutTx where
  txHash : Hash
  localIndex : Nat
  deriving DecidableEq

/-- `output_txs` and `output_amounts`, by output id and by amount and index. -/
structure OutputRows where
  outputTxs : Table OutTx
  outputAmounts : UInt64 → Table OutKey

namespace OutputRows

def numOutputs (o : OutputRows) : Nat :=
  match o.outputTxs.rows.getLast? with
  | none => 0
  | some (id, _) => id + 1

def nextIndex (o : OutputRows) (amount : UInt64) : Nat := (o.outputAmounts amount).count

def addOutput (o : OutputRows) (height : Nat) (txHash : Hash) (out : TxOut) (localIndex : Nat)
    (unlockTime : UInt64) (commitment : Option PublicKey) : Except DbError (Nat × OutputRows) :=
  match out.target with
  | .toKey key =>
    if out.amount = 0 ∧ commitment = none then .error .dbError
    else
      let row : OutKey :=
        { outputId := o.numOutputs, pubkey := key, unlockTime, height
          commitment := if out.amount = 0 then commitment else none }
      match o.outputTxs.append o.numOutputs { txHash, localIndex },
        (o.outputAmounts out.amount).append (o.nextIndex out.amount) row with
      | some txs, some outs =>
        .ok (o.nextIndex out.amount,
          { outputTxs := txs, outputAmounts := Function.update o.outputAmounts out.amount outs })
      | _, _ => .error .dbError
  | _ => .error .dbError

def storedOutput (env : DbEnv) (tx : Transaction) (out : TxOut) (i : Nat) : TxOut × Option PublicKey :=
  if tx.hasGen && tx.version = 2 then ({ out with amount := 0 }, some (env.zeroCommit out.amount))
  else (out, if 1 < tx.version then tx.rctSignatures.outPk[i]? else none)

def addOutputs (env : DbEnv) (height : Nat) (txHash : Hash) (tx : Transaction) :
    Nat → List TxOut → OutputRows → Except DbError (List Nat × OutputRows)
  | _, [], o => .ok ([], o)
  | i, out :: outs, o => do
    let (stored, commitment) := storedOutput env tx out i
    let (index, o) ← o.addOutput height txHash stored i tx.unlockTime commitment
    let (indices, o) ← addOutputs env height txHash tx (i + 1) outs o
    .ok (index :: indices, o)

def removeOutput (o : OutputRows) (amount : UInt64) (index : Nat) : Except DbError OutputRows :=
  match (o.outputAmounts amount).get? index with
  | none => .error .outputDne
  | some row =>
    if (o.outputTxs.get? row.outputId).isNone then .error .dbError
    else .ok
      { outputTxs := o.outputTxs.del row.outputId
        outputAmounts := Function.update o.outputAmounts amount ((o.outputAmounts amount).del index) }

/-- The loop of `remove_tx_outputs`, over the outputs with their indices, last first. -/
def removeOutputs (tx : Transaction) (o : OutputRows) (outs : List (TxOut × Nat)) : Except DbError OutputRows :=
  outs.foldrM (fun (out, index) o => o.removeOutput (if tx.isPseudoRct then 0 else out.amount) index) o

end OutputRows

structure TxIndex where
  txId : Nat
  unlockTime : UInt64
  blockId : Nat
  deriving DecidableEq

/-- The tables by transaction id, and `tx_indices` by hash. -/
@[ext]
structure TxRows where
  txsPruned : Table Transaction
  /-- Whether the prunable part has any content. -/
  txsPrunable : Table Bool
  txsPrunableHash : Table Hash
  txsPrunableTip : Nat → Option Nat
  txIndices : Hash → Option TxIndex
  txOutputs : Table (List Nat)
  /-- The tip rows belong to transactions of the table. -/
  tip_stored : ∀ id, (txsPrunableTip id).isSome = true → (txsPruned.get? id).isSome = true

namespace TxRows

def txCount (r : TxRows) : Nat := r.txsPruned.count

/-- `add_transaction_data`, with the id it assigns. `tips` is set once the node prunes. -/
def addTransactionData (r : TxRows) (tips : Bool) (height : Nat) (txHash prunableHash : Hash)
    (tx : Transaction) : Except DbError (Nat × TxRows) :=
  if (r.txIndices txHash).isSome then .error .txExists
  else
    match hpruned : r.txsPruned.append r.txCount { tx with pruned := true },
      r.txsPrunable.append r.txCount !tx.pruned,
      (if 1 < tx.version then r.txsPrunableHash.append r.txCount prunableHash else some r.txsPrunableHash) with
    | some pruned, some prunable, some hashes =>
      .ok (r.txCount,
        { txsPruned := pruned
          txsPrunable := prunable
          txsPrunableHash := hashes
          txsPrunableTip := if tips then Function.update r.txsPrunableTip r.txCount (some height)
            else r.txsPrunableTip
          txIndices := Function.update r.txIndices txHash
            (some { txId := r.txCount, unlockTime := tx.unlockTime, blockId := height })
          txOutputs := r.txOutputs
          tip_stored := by
            intro id hid
            by_cases hnew : id = r.txCount
            · rw [hnew, Table.get?_append hpruned]
              rfl
            · rw [Table.get?_append_of_ne hpruned hnew]
              apply r.tip_stored id
              split at hid
              · rwa [Function.update_of_ne hnew] at hid
              · exact hid })
    | _, _, _ => .error .dbError

def addIndices (r : TxRows) (txId : Nat) (indices : List Nat) : Except DbError TxRows :=
  match r.txOutputs.append txId indices with
  | some txOutputs => .ok { r with txOutputs }
  | none => .error .dbError

def getTx (r : TxRows) (txHash : Hash) : Except DbError (Option Transaction) :=
  match r.txIndices txHash with
  | none => .ok none
  | some index =>
    match r.txsPruned.get? index.txId, r.txsPrunable.get? index.txId with
    | some tx, some whole =>
      if tx.hasPrunable && !whole then .error .dbError else .ok (some { tx with pruned := false })
    | _, _ => .ok none

def getPrunedTx (r : TxRows) (txHash : Hash) : Option Transaction :=
  (r.txIndices txHash).bind fun index => r.txsPruned.get? index.txId

/-- The row deletions of `remove_transaction_data`, with the output indices it reads. -/
def remove (r : TxRows) (txHash : Hash) (tx : Transaction) : Except DbError (List Nat × TxRows) :=
  match r.txIndices txHash with
  | none => .error .txDne
  | some { txId, .. } =>
    if (r.txsPruned.get? txId).isNone then .error .dbError
    else if 1 < tx.version ∧ (r.txsPrunableHash.get? txId).isNone then .error .dbError
    else .ok ((r.txOutputs.get? txId).getD [],
      { txsPruned := r.txsPruned.del txId
        txsPrunable := r.txsPrunable.del txId
        txsPrunableHash := if 1 < tx.version then r.txsPrunableHash.del txId else r.txsPrunableHash
        txsPrunableTip := Function.update r.txsPrunableTip txId none
        txIndices := Function.update r.txIndices txHash none
        txOutputs := r.txOutputs.del txId
        tip_stored := by
          intro id hid
          by_cases hgone : id = txId
          · rw [hgone, Function.update_self] at hid
            cases hid
          · rw [Function.update_of_ne hgone] at hid
            rw [Table.get?_del_of_ne hgone]
            exact r.tip_stored id hid })

end TxRows

/-! ## Key images and blocks -/

def addSpentKeys : List TxIn → (PublicKey → Bool) → Except DbError (Option (PublicKey → Bool))
  | [], spent => .ok (some spent)
  | .toKey _ _ k :: inputs, spent =>
    if spent k then .error .keyImageExists else addSpentKeys inputs (Function.update spent k true)
  | .gen _ :: inputs, spent => addSpentKeys inputs spent
  | .toScript :: _, _ | .toScripthash :: _, _ => .ok none

def removeSpentKeys (images : List PublicKey) (spent : PublicKey → Bool) : PublicKey → Bool :=
  fun k => spent k && decide (k ∉ images)

structure BlockInfo where
  timestamp : UInt64
  coins : UInt64
  weight : UInt64
  gyro : GyroType
  hash : Hash
  spinPublicKey : PublicKey
  spinPrevuosHeight : UInt64
  cumRct : UInt64
  longTermBlockWeight : UInt64

structure BlockRows where
  blocks : Table Block
  blockInfo : Table BlockInfo
  blockHeights : Hash → Option Nat
  spinnerHeights : PublicKey → Option UInt64

namespace BlockRows

def height (r : BlockRows) : Nat := r.blocks.count

def add (r : BlockRows) (e : BlockEntry) (longTermBlockWeight numRctOuts : UInt64) : Except DbError BlockRows :=
  if (r.blockHeights e.block.hash).isSome then .error .blockExists
  else if 0 < r.height ∧ (r.blockHeights e.block.prevId).isNone then .error .dbError
  else if 0 < r.height ∧ r.blockHeights e.block.prevId ≠ some (r.height - 1) then .error .blockParentDne
  else
    let previous :=
      if 4 ≤ e.block.majorVersion then
        if r.height = 0 then none else (r.blockInfo.get? (r.height - 1)).map (·.cumRct)
      else some 0
    match previous with
    | none => .error .blockDne
    | some cumRct =>
      let info : BlockInfo :=
        { timestamp := e.block.timestamp, coins := e.coins, weight := e.weight, gyro := e.gyro
          hash := e.block.hash, spinPublicKey := e.spinPublicKey, spinPrevuosHeight := e.spinPrevuosHeight
          cumRct := numRctOuts + cumRct, longTermBlockWeight }
      match r.blocks.append r.height e.block, r.blockInfo.append r.height info with
      | some blocks, some blockInfo =>
        .ok
          { blocks, blockInfo
            blockHeights := Function.update r.blockHeights e.block.hash (some r.height)
            spinnerHeights := Db.putSpinnerHeight r.spinnerHeights e.spinPublicKey (UInt64.ofNat r.height) }
      | _, _ => .error .dbError

/-- `remove_block`. The cursor of `blocks` stands where `get_top_block` has read. -/
def remove (r : BlockRows) : Except DbError BlockRows :=
  if r.height = 0 then .error .blockDne
  else
    match r.blockInfo.get? (r.height - 1) with
    | none => .error .blockDne
    | some info =>
      if (r.blockHeights info.hash).isNone then .error .dbError
      else .ok
        { blocks := r.blocks.del (r.height - 1)
          blockInfo := r.blockInfo.del (r.height - 1)
          blockHeights := Function.update r.blockHeights info.hash none
          spinnerHeights := Db.putSpinnerHeight r.spinnerHeights info.spinPublicKey info.spinPrevuosHeight }

end BlockRows

/-! ## The whole database -/

structure TxTables where
  txs : TxRows
  outputs : OutputRows
  spentKeys : PublicKey → Bool

structure Tables where
  blocks : BlockRows
  rows : TxTables
  /-- Whether the node prunes, `get_blockchain_pruning_seed`. -/
  pruning : Bool

namespace TxTables

/-- With an input of another kind it is left out, and its key images are removed whoever spent them.
-/
def addTransaction (env : DbEnv) (tips : Bool) (height : Nat) (t : TxTables) (txHash : Hash)
    (tx : Transaction) : Except DbError TxTables :=
  match addSpentKeys tx.vin t.spentKeys with
  | .error e => .error e
  | .ok none => .ok { t with spentKeys := removeSpentKeys tx.keyImages t.spentKeys }
  | .ok (some spentKeys) => do
    let (txId, txs) ← t.txs.addTransactionData tips height txHash (env.prunableHash tx) tx
    let (indices, outputs) ← t.outputs.addOutputs env height txHash tx 0 tx.vout
    let txs ← txs.addIndices txId indices
    .ok { txs, outputs, spentKeys }

def addTransactions (env : DbEnv) (tips : Bool) (height : Nat) :
    List (Hash × Transaction) → TxTables → Except DbError TxTables
  | [], t => .ok t
  | (h, tx) :: txs, t => do
    let t ← t.addTransaction env tips height h tx
    addTransactions env tips height txs t

def removeTransaction (t : TxTables) (txHash : Hash) : Except DbError TxTables :=
  match t.txs.getPrunedTx txHash with
  | none => .error .txDne
  | some tx => do
    let (indices, txs) ← t.txs.remove txHash tx
    if indices.length < tx.vout.length then .error .dbError
    else
      let outputs ← t.outputs.removeOutputs tx (tx.vout.zip indices)
      .ok { txs, outputs, spentKeys := removeSpentKeys tx.keyImages t.spentKeys }

def popTransactions : List Hash → TxTables → Except DbError (List Transaction × TxTables)
  | [], t => .ok ([], t)
  | h :: hashes, t => do
    match ← t.txs.getTx h, t.txs.getPrunedTx h with
    | some tx, _ | none, some tx =>
      let t ← t.removeTransaction h
      let (txs, t) ← popTransactions hashes t
      .ok (tx :: txs, t)
    | none, none => .error .dbError

end TxTables

namespace Tables

def height (t : Tables) : Nat := t.blocks.height

/-- Every output of a coinbase of version 2, and otherwise those of amount 0. -/
def numRctOuts (e : BlockEntry) : UInt64 :=
  UInt64.ofNat ((if e.block.spinnerTx.version = 2 then e.block.spinnerTx.vout.length else 0) +
    (e.txs.flatMap (·.vout)).countP (·.amount = 0))

def addBlock (env : DbEnv) (t : Tables) (e : BlockEntry) (longTermBlockWeight : UInt64) : Except DbError Tables :=
  if e.block.txHashes.length ≠ e.txs.length then .error .inconsistentSizes
  else do
    let rows ← t.rows.addTransaction env t.pruning t.height e.block.spinnerTx.hash e.block.spinnerTx
    let rows ← rows.addTransactions env t.pruning t.height (e.block.txHashes.zip e.txs)
    let blocks ← t.blocks.add e longTermBlockWeight (numRctOuts e)
    .ok { t with blocks, rows }

def popBlock (t : Tables) : Except DbError (Block × List Transaction × Tables) :=
  match t.blocks.blocks.get? (t.height - 1) with
  | none => .error .blockDne
  | some b => do
    let blocks ← t.blocks.remove
    let (txs, rows) ← t.rows.popTransactions b.txHashes.reverse
    let rows ← rows.removeTransaction b.spinnerTx.hash
    .ok (b, txs, { t with blocks, rows })

end Tables

end Gyro
