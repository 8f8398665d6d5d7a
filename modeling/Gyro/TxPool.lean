import Gyro.Coinbase
import Gyro.Pool
import Gyro.Lib.InvertedIndex

/-!
# The memory pool

`tx_memory_pool`: the database holds the transactions, the object their total weight,
order and key images. When the database throws, `LockedTXN` takes the writes of the
call back, and memory stays changed.
-/

namespace Gyro

open Keyed InvertedIndex

/-- `relay_method`: how a transaction was received, in the order of its enumeration. -/
inductive RelayMethod where
  | none
  | «local»
  | stem
  | fluff
  | block
  deriving DecidableEq, Repr

namespace RelayMethod

def rank : RelayMethod → Nat
  | .none => 0
  | .«local» => 1
  | .stem => 2
  | .fluff => 3
  | .block => 4

/-- `matches_category(method, relay_category::legacy)`: the transaction is public. -/
def legacy : RelayMethod → Bool
  | .«local» | .stem => false
  | .none | .fluff | .block => true

/-- `upgrade_relay_method`: the new method, and whether it is another one. -/
def upgrade (old new : RelayMethod) : RelayMethod × Bool :=
  if old.rank < new.rank then (new, true) else (old, false)

end RelayMethod

/-- The fields that accounting and relaying read. The relay flags are one value. -/
structure TxPoolMeta where
  weight : UInt64
  fee : UInt64
  receiveTime : UInt64
  /-- The end of the embargo of a transaction on its stem phase. -/
  lastRelayedTime : UInt64
  relayMethod : RelayMethod
  pruned : Bool
  isMessage : Bool
  deriving DecidableEq

structure PooledTx where
  tx : Transaction
  info : TxPoolMeta
  deriving DecidableEq

namespace PooledTx

def id (r : PooledTx) : Hash := r.tx.hash

def keyImages (r : PooledTx) : List PublicKey := r.tx.keyImages

def keptByBlock (r : PooledTx) : Bool := r.info.relayMethod = .block

end PooledTx

structure SortedEntry where
  feePerByte : ℚ
  receiveTime : UInt64
  id : Hash
  deriving DecidableEq

def SortedEntry.precedes (x e : SortedEntry) : Bool :=
  e.feePerByte < x.feePerByte || x.feePerByte = e.feePerByte && x.receiveTime < e.receiveTime

structure TxPool where
  /-- The records in the database. -/
  stored : List PooledTx
  spentKeyImages : Index PublicKey Hash
  sorted : List SortedEntry
  timedOut : List Hash
  weight : UInt64
  maxWeight : UInt64

def defaultTxpoolMaxWeight : UInt64 := 648000000
def coinbaseBlobReservedSize : UInt64 := 600

/-- What the pool asks the blockchain, and its division: a double is a rational number. -/
structure PoolEnv where
  checkFee : UInt64 → UInt64 → Bool
  checkTxOutputs : Transaction → Bool
  checkTxInputs : Transaction → Bool → Bool
  haveTx : Hash → Bool
  feePerByte : UInt64 → UInt64 → ℚ
  now : UInt64
  mempoolTxLivetime : UInt64
  mempoolTxFromAltBlockLivetime : UInt64
  messageTxLivetime : UInt64
  /-- The seconds `embargo_duration` draws for a transaction. -/
  embargo : Hash → UInt64

/-- Of a call: the lookup of a category, the read and the write of a record, and the commit. -/
structure DbThrows where
  category : Hash → Bool
  read : Hash → Bool
  write : Hash → Bool
  commit : Bool

def DbThrows.none : DbThrows :=
  { category := fun _ => false, read := fun _ => false, write := fun _ => false, commit := false }

namespace TxPool

def empty : TxPool where
  stored := []
  spentKeyImages _ := .none
  sorted := []
  timedOut := []
  weight := 0
  maxWeight := defaultTxpoolMaxWeight

def lookup (p : TxPool) (id : Hash) : Option PooledTx := find PooledTx.id p.stored id

/-- Those before the call when the commit throws, which is passed over in silence. -/
def commit (db : DbThrows) (before after : List PooledTx) : List PooledTx :=
  if db.commit then before else after

def eraseSorted (sorted : List SortedEntry) (id : Hash) : List SortedEntry :=
  sorted.eraseP (·.id = id)

def insertSorted (sorted : List SortedEntry) (e : SortedEntry) : List SortedEntry :=
  if e ∈ sorted then sorted
  else sorted.takeWhile (·.precedes e) ++ e :: sorted.dropWhile (·.precedes e)

/-- `txpool_tx_matches_category(id, legacy)`; an exception counts as no. -/
def matchesLegacy (db : DbThrows) (stored : List PooledTx) (id : Hash) : Bool :=
  !db.category id && ((find PooledTx.id stored id).map (·.info.relayMethod.legacy)).getD false

def haveTxKeyimgAsSpent (db : DbThrows) (p : TxPool) (id : Hash) (k : PublicKey) : Bool :=
  match p.spentKeyImages k with
  | .none => false
  | some owners =>
    if owners = ∅ then false
    else if owners ≠ {id} then true
    else matchesLegacy db p.stored id

def haveTxKeyimgesAsSpent (db : DbThrows) (p : TxPool) (tx : Transaction) : Bool :=
  tx.keyImages.any (haveTxKeyimgAsSpent db p tx.hash)

/-- The first key image that may not be shared ends the loop, with those before it inserted. -/
def insertKeyImages (db : DbThrows) (stored : List PooledTx) (id : Hash) (relay : RelayMethod) :
    List PublicKey → Index PublicKey Hash → Bool × Index PublicKey Hash
  | [], images => (true, images)
  | k :: ks, images =>
    let owners := images.owners k
    if relay ≠ .block ∧ ¬ (owners = ∅ ∨ owners = {id}) then
      -- the lookup by operator[] leaves an entry behind
      (false, fun j => if j = k then some owners else images j)
    else
      let images' : Index PublicKey Hash := images.add id [k]
      if id ∉ owners ∨ ¬ matchesLegacy db stored id then insertKeyImages db stored id relay ks images'
      else (false, images')

/-- It stops at the first key image that is not there for the transaction. -/
def removeKeyImages (id : Hash) : List PublicKey → Index PublicKey Hash → Index PublicKey Hash
  | [], images => images
  | k :: ks, images =>
    if id ∈ images.owners k then removeKeyImages id ks (images.drop id [k]) else images

/-- A record that is there goes, with its weight and its key images. -/
def removeRecord (p : TxPool) (r : PooledTx) (weight : UInt64) : TxPool :=
  { p with
    stored := without PooledTx.id p.stored r.id
    weight := p.weight - weight
    spentKeyImages := removeKeyImages r.id r.keyImages p.spentKeyImages }

def takeTx (db : DbThrows) (p : TxPool) (id : Hash) : Option PooledTx × TxPool :=
  if db.read id then (.none, p)
  else
    match p.lookup id with
    | .none => (.none, p)
    | some r =>
      if db.write id then (.none, p)
      else
        let p' := p.removeRecord r r.info.weight
        (some r, { p' with
          stored := commit db p.stored p'.stored
          sorted := eraseSorted p.sorted id })

/-- From the lowest fee up. It returns without a commit when a record is missing or something
throws. -/
def pruneLoop (db : DbThrows) (bytes : UInt64) : List SortedEntry → TxPool → Bool × TxPool
  | [], p => (true, p)
  | e :: todo, p =>
    if p.weight ≤ bytes then (true, p)
    else if db.read e.id then (false, p)
    else
      match p.lookup e.id with
      | .none => (false, p)
      | some r =>
        if r.keptByBlock then pruneLoop db bytes todo p
        else if db.write e.id then (false, p)
        else
          pruneLoop db bytes todo { p.removeRecord r r.info.weight with sorted := p.sorted.erase e }

def prune (db : DbThrows) (p : TxPool) (bytes : UInt64) : TxPool :=
  let bytes := if bytes = 0 then p.maxWeight else bytes
  let (done, p') := pruneLoop db bytes p.sorted.tail.reverse p
  { p' with stored := if done then commit db p.stored p'.stored else p.stored }

def isStuck (env : PoolEnv) (r : PooledTx) : Bool :=
  let txAge := env.now - r.info.receiveTime
  env.mempoolTxLivetime < txAge && !r.keptByBlock ||
    env.mempoolTxFromAltBlockLivetime < txAge && r.keptByBlock ||
    r.info.isMessage && env.messageTxLivetime < txAge

def stuck (env : PoolEnv) (p : TxPool) : List PooledTx := p.stored.filter (isStuck env)

/-- One of the removals of `remove_stuck_transactions`; an exception is passed over. -/
def removeStuck (db : DbThrows) (p : TxPool) (r : PooledTx) : TxPool :=
  if db.read r.id || db.write r.id then p else p.removeRecord r r.info.weight

def removeStuckTransactions (env : PoolEnv) (db : DbThrows) (p : TxPool) : TxPool :=
  let p' := { p with
    sorted := (p.stuck env).foldl (fun sorted r => eraseSorted sorted r.id) p.sorted
    timedOut := (p.stuck env).map (·.id) ++ p.timedOut }
  let p'' := (p.stuck env).foldl (removeStuck db) p'
  { p'' with stored := commit db p.stored p''.stored }

def getTransactionWeightLimit (version : UInt8) : UInt64 :=
  if 8 ≤ version then getMinBlockWeight version / 2 - coinbaseBlobReservedSize
  else getMinBlockWeight version - coinbaseBlobReservedSize

def invalid (env : PoolEnv) (version : UInt8) (p : TxPool) : List PooledTx :=
  p.stored.filter fun r => getTransactionWeightLimit version < r.info.weight || env.haveTx r.id

/-- A pruned transaction does not parse and stays. The parsed weight is taken off. -/
def removeInvalid (db : DbThrows) (p : TxPool) (r : PooledTx) : TxPool :=
  if db.read r.id || r.info.pruned || db.write r.id then p
  else { p.removeRecord r r.tx.weight with sorted := eraseSorted p.sorted r.id }

def validate (env : PoolEnv) (db : DbThrows) (version : UInt8) (p : TxPool) : TxPool :=
  let p' := { p with weight := (p.stored.map (·.info.weight)).foldl (· + ·) 0 }
  let p'' := (p.invalid env version).foldl (removeInvalid db) p'
  { p'' with stored := commit db p.stored p''.stored }

def relayed (env : PoolEnv) (db : DbThrows) (ids : List Hash) (method : RelayMethod) (r : PooledTx) :
    PooledTx :=
  if r.id ∈ ids ∧ ¬ db.read r.id ∧ ¬ db.write r.id then
    let relayMethod := (r.info.relayMethod.upgrade method).1
    { r with
      info := { r.info with
        relayMethod
        lastRelayedTime := if relayMethod = .stem then env.now + env.embargo r.id else env.now } }
  else r

def setRelayed (env : PoolEnv) (db : DbThrows) (p : TxPool) (ids : List Hash) (method : RelayMethod) :
    TxPool :=
  { p with stored := commit db p.stored (p.stored.map (relayed env db ids method)) }

def inputsAmount (tx : Transaction) : UInt64 :=
  (tx.vin.map fun
    | .toKey amount _ _ => amount
    | _ => 0).foldl (· + ·) 0

def feeOf (tx : Transaction) : Option UInt64 :=
  if tx.version = 1 then
    let outputsAmount := tx.amounts.foldl (· + ·) 0
    if inputsAmount tx < outputsAmount then .none
    else if outputsAmount = inputsAmount tx ∧ tx.unlockTime ≠ spinnedMoneyLockedBlocks then .none
    else some (inputsAmount tx - outputsAmount)
  else some tx.fee

def passesChecks (env : PoolEnv) (db : DbThrows) (version : UInt8) (p : TxPool) (tx : Transaction)
    (relay : RelayMethod) (fee : UInt64) : Bool :=
  let keptByBlock : Bool := relay = .block
  tx.version ≠ 0 &&
    (keptByBlock || !decide (tx.hash ∈ p.timedOut)) &&
    tx.keyImages.length = tx.vin.length &&
    (keptByBlock || tx.unlockTime = spinnedMoneyLockedBlocks || env.checkFee tx.weight fee) &&
    (keptByBlock && version < 8 || tx.weight ≤ getTransactionWeightLimit version) &&
    (keptByBlock || !haveTxKeyimgesAsSpent db p tx) &&
    env.checkTxOutputs tx

def newRecord (env : PoolEnv) (tx : Transaction) (relay : RelayMethod) (fee lastRelayedTime : UInt64) : PooledTx where
  tx := tx
  info := { weight := tx.weight, fee, receiveTime := env.now, lastRelayedTime, relayMethod := relay
            pruned := tx.pruned, isMessage := tx.smsFromExtra.isSome }

/-- Money locked for spinning comes before everything else: `10000000` per byte. -/
def sortedEntry (env : PoolEnv) (tx : Transaction) (fee : UInt64) : SortedEntry where
  feePerByte :=
    if tx.unlockTime = spinnedMoneyLockedBlocks then env.feePerByte 10000000 1
    else env.feePerByte fee (if tx.weight = 0 then 1 else tx.weight)
  receiveTime := env.now
  id := tx.hash

def notRelayed : UInt64 := 18446744073709551615

/-- `relay` is the method recorded. The write throws when the table has the record already. -/
def storeTx (env : PoolEnv) (db : DbThrows) (p : TxPool) (tx : Transaction) (relay : RelayMethod)
    (fee lastRelayedTime : UInt64) (replace : Bool) : Bool × TxPool :=
  let (inserted, images) := insertKeyImages db p.stored tx.hash relay tx.keyImages p.spentKeyImages
  let p := { p with spentKeyImages := images }
  if !inserted || db.write tx.hash || !replace && (p.lookup tx.hash).isSome then (false, p)
  else
    let stored := without PooledTx.id p.stored tx.hash ++ [newRecord env tx relay fee lastRelayedTime]
    (true, { p with
      stored := commit db p.stored stored
      sorted := insertSorted p.sorted (sortedEntry env tx fee) })

/-- For good inputs. A transaction that is there is replaced when it comes by a higher method. -/
def storeChecked (env : PoolEnv) (db : DbThrows) (p : TxPool) (tx : Transaction) (relay : RelayMethod)
    (fee : UInt64) : Bool × TxPool :=
  if db.read tx.hash then (false, p)
  else
    match p.lookup tx.hash with
    | .none => storeTx env db p tx (RelayMethod.none.upgrade relay).1 fee notRelayed true
    | some r =>
      let relay := if relay = .stem ∧ r.info.relayMethod = .stem then .fluff else relay
      if (r.info.relayMethod.upgrade relay).2 then storeTx env db p tx relay fee notRelayed true
      else (true, p)

def addTx (env : PoolEnv) (db pruneDb : DbThrows) (version : UInt8) (p : TxPool) (tx : Transaction)
    (relay : RelayMethod) : Bool × TxPool :=
  match feeOf tx with
  | .none => (false, p)
  | some fee =>
    if passesChecks env db version p tx relay fee then
      let keptByBlock : Bool := relay = .block
      let (added, p') :=
        if env.checkTxInputs tx keptByBlock then storeChecked env db p tx relay fee
        else if keptByBlock then storeTx env db p tx relay fee env.now false
        else (false, p)
      if added then
        let p' := { p' with weight := p'.weight + tx.weight }
        (true, p'.prune pruneDb p'.maxWeight)
      else (false, p')
    else (false, p)

def initPass (env : PoolEnv) : List PooledTx → TxPool → Bool × TxPool
  | [], p => (true, p)
  | r :: rs, p =>
    match insertKeyImages .none p.stored r.id r.info.relayMethod r.keyImages p.spentKeyImages with
    | (false, images) => (false, { p with spentKeyImages := images })
    | (true, images) =>
      initPass env rs { p with
        spentKeyImages := images
        sorted := insertSorted p.sorted
          { feePerByte := env.feePerByte r.info.fee r.info.weight, receiveTime := r.info.receiveTime
            id := r.id }
        weight := p.weight + r.info.weight }

/-- Memory is built again from the records, those not kept by a block first. -/
def init (env : PoolEnv) (maxTxpoolWeight : UInt64) (p : TxPool) : Bool × TxPool :=
  let p := { p with
    spentKeyImages := fun _ => .none
    sorted := []
    weight := 0
    maxWeight := if maxTxpoolWeight = 0 then defaultTxpoolMaxWeight else maxTxpoolWeight }
  match initPass env (p.stored.filter (!·.keptByBlock)) p with
  | (false, p) => (false, p)
  | (true, p) => initPass env (p.stored.filter (·.keptByBlock)) p

end TxPool

inductive PoolOp where
  | addTx (version : UInt8) (tx : Transaction) (relay : RelayMethod) (pruneDb : DbThrows)
  | takeTx (id : Hash)
  | prune (bytes : UInt64)
  | removeStuckTransactions
  | validate (version : UInt8)
  | setRelayed (ids : List Hash) (method : RelayMethod)
  | init (maxTxpoolWeight : UInt64)

/-- A call, with what the blockchain answers and what throws during it. -/
structure PoolCall where
  env : PoolEnv
  db : DbThrows
  op : PoolOp

def TxPool.call (p : TxPool) (c : PoolCall) : Option TxPool :=
  match c.op with
  | .addTx version tx relay pruneDb => some (p.addTx c.env c.db pruneDb version tx relay).2
  | .takeTx id => some (p.takeTx c.db id).2
  | .prune bytes => some (p.prune c.db bytes)
  | .removeStuckTransactions => some (p.removeStuckTransactions c.env c.db)
  | .validate version => some (p.validate c.env c.db version)
  | .setRelayed ids method => some (p.setRelayed c.env c.db ids method)
  | .init maxTxpoolWeight => some (p.init c.env maxTxpoolWeight).2

end Gyro
