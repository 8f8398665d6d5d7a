import Gyro.GetSpin
import Gyro.Coinbase
import Gyro.Pool
import Gyro.SpinnerIndex

/-!
# `handle_block_to_main_chain`

The checks of the header, of the transactions taken from the pool, of the coinbase and
of the spinner data, and the write. Every way to return false is a `Rejection`.
-/

namespace Gyro

structure AltBlock where
  block : Block
  height : UInt64
  cumulativeWeight : UInt64
  cumulativeGyro : GyroType
  alreadyGeneratedCoins : UInt64

structure Blockchain where
  db : Db
  pool : Pool
  altBlocks : Hash → Option AltBlock
  invalidBlocks : List Hash
  /-- The precompiled block hashes with their weights. -/
  blocksHashCheck : List (Hash × UInt64)
  blocksTxsCheck : List Hash

inductive Rejection where
  | wrongPrevId
  | oldVersion
  | invalidTimestamp
  | gyroOverhead
  | unexpectedHash
  | checkpoint
  | prevalidation
  | txInBlockchain
  | unknownTx
  | messageTx
  | wrongInputs
  | prunedWithoutWeight
  | incorrectCoinbase
  | incorrectLocked
  | incorrectSpin
  | noSpinnerData
  | spinnerDataMismatch
  | dbException
  deriving DecidableEq, Repr

def Rejection.givesBack : Rejection → Bool
  | .txInBlockchain | .unknownTx | .messageTx | .wrongInputs | .incorrectCoinbase
  | .incorrectLocked | .incorrectSpin | .dbException => true
  | .prunedWithoutWeight | .noSpinnerData | .spinnerDataMismatch => false
  -- nothing has been taken yet
  | .wrongPrevId | .oldVersion | .invalidTimestamp | .gyroOverhead | .unexpectedHash | .checkpoint
  | .prevalidation => false

section
variable (env : Env)

def currentGyro (db : Db) : GyroType :=
  match db.entries.getLast? with
  | some e => e.gyro
  | none => GyroType.unit

def expectedHash (st : Blockchain) (height : UInt64) : Option Hash :=
  match st.blocksHashCheck[height.toNat]? with
  | some (h, _) => if h = nullHash then none else some h
  | none => none

def fastCheck (st : Blockchain) : Bool := (expectedHash st st.db.height).isSome

def passesCheckpoints (cfg : Config) (height : UInt64) (id : Hash) : Bool :=
  cfg.checkpoints.all fun p => p.1 ≠ height || p.2 = id

def headerRejection (now : UInt64) (st : Blockchain) (b : Block) : Option Rejection :=
  let height := st.db.height
  if b.prevId ≠ st.db.topBlockHash then some .wrongPrevId
  else if ¬ checkVersion env.cfg st.db b then some .oldVersion
  else if ¬ checkBlockTimestamp st.db now b then some .invalidTimestamp
  else if (currentGyro st.db).M = 0 then some .gyroOverhead
  else if (expectedHash st height).any (· ≠ b.hash) then some .unexpectedHash
  else if ¬ passesCheckpoints env.cfg height b.hash then some .checkpoint
  else if ¬ prevalidateSpinnerTransaction b height (currentVersion env.cfg st.db) then
    some .prevalidation
  else none

structure Taken where
  pool : Pool
  txs : List Transaction

def inputsAccepted (now : UInt64) (st : Blockchain) (index : Nat) (tx : Transaction) : Bool :=
  if fastCheck st then st.blocksTxsCheck[index]? = some tx.hash
  else env.checkTxInputs st.db.entries now tx

/-- A message transaction is refused after it is taken and before it is listed. -/
def takeTxs (now : UInt64) (st : Blockchain) : List Hash → Taken → Except (Rejection × Taken) Taken
  | [], t => .ok t
  | id :: ids, t =>
    if st.db.txExists id then .error (.txInBlockchain, t)
    else
      match t.pool.takeTx id with
      | none => .error (.unknownTx, t)
      | some (tx, pool) =>
        if tx.smsFromExtra.isSome then .error (.messageTx, { t with pool })
        else if inputsAccepted env now st t.txs.length tx then
          takeTxs now st ids { pool, txs := t.txs ++ [tx] }
        else .error (.wrongInputs, { pool, txs := t.txs ++ [tx] })

/-- The weight of the block; `none` when it has pruned transactions and no
precompiled weight. -/
def blockWeight (st : Blockchain) (b : Block) (txs : List Transaction) : Option UInt64 :=
  if txs.any (·.pruned) then
    match st.blocksHashCheck[st.db.height.toNat]? with
    | some (_, weight) => if weight = 0 then none else some weight
    | none => none
  else some (txs.foldl (fun acc tx => acc + tx.weight) b.spinnerTx.weight)

def feeSummary (txs : List Transaction) : UInt64 := txs.foldl (fun acc tx => acc + tx.fee) 0

/-- The carried data, once its signatures are checked, with the locked amount computed; `none` is
`return false`. -/
def getSpinnerTransactionLocked (fuel : Nat) (db : Db) (b : Block) (height : UInt64) :
    Except Fault (Option SpinnerData) :=
  match b.spinnerTx.spinDataFromExtra with
  | none => .ok (if env.cfg.startAmountBlocks < height then none else some SpinnerData.zero)
  | some blob =>
    if env.cfg.startAmountBlocks < height then
      match parseSpinnerData blob, b.spinnerTx.spinSigFromExtra with
      | some data, some sig =>
        if env.checkSignature (cnFastHash (bytesOf 32 data.nfo.pub)) data.nfo.adr.viewPublicKey
            data.nfo.sig &&
          env.checkSignature (cnFastHash (hashBytes b.prevId ++ bytesOf 8 height.toBitVec ++ blob))
            data.nfo.pub sig then
          match calcSpinnerTransactionLocked env fuel db data.nfo with
          | .error f => .error f
          | .ok locked => .ok (locked.map fun locked => { data with locked })
        else .ok none
      | _, _ => .ok none
    else .ok none

def dataAgrees (data computed : SpinnerData) : Bool :=
  data.locked = computed.locked ∧ data.spin = computed.spin ∧
    data.mediumSpin = computed.mediumSpin ∧ data.interval = computed.interval ∧
    data.mediumInterval = computed.mediumInterval

abbrev Exit := Rejection ⊕ Fault

structure Verified where
  data : SpinnerData
  spin : SpinType
  reward : UInt64

/-- The spin of a block above the start blocks, its data compared with the computed one. -/
def verifySpin (fuel : Nat) (now : UInt64) (db : Db) (data : SpinnerData) : Except Exit SpinType :=
  match getSpin env.cfg db data.nfo.proof.txid data.spin with
  | .error f => .error (.inr f)
  | .ok none => .error (.inl .incorrectSpin)
  | .ok (some spin) =>
    match getSpinnerData env fuel now db data.nfo SpinnerData.zero 0 with
    | .error (.returnFalse _) => .error (.inl .noSpinnerData)
    | .error (.fault f) => .error (.inr f)
    | .ok (computed, _) =>
      if dataAgrees data computed then .ok spin else .error (.inl .spinnerDataMismatch)

def alreadyGeneratedCoins (db : Db) : UInt64 :=
  match db.entries.getLast? with
  | some e => e.coins
  | none => 0

def verifyBlock (fuel : Nat) (now : UInt64) (db : Db) (b : Block) (weight fee : UInt64) :
    Except Exit Verified :=
  match validateSpinnerTransaction env db b db.height weight fee (alreadyGeneratedCoins db)
    (currentVersion env.cfg db) with
  | none => .error (.inl .incorrectCoinbase)
  | some reward =>
    match getSpinnerTransactionLocked env fuel db b db.height with
    | .error f => .error (.inr f)
    | .ok none => .error (.inl .incorrectLocked)
    | .ok (some data) =>
      if env.cfg.startAmountBlocks < db.height then
        match verifySpin env fuel now db data with
        | .error e => .error e
        | .ok spin => .ok { data, spin, reward }
      else .ok { data, spin := SpinType.unit, reward }

def nextCoins (coins reward : UInt64) : UInt64 :=
  if reward < moneySupply - coins then coins + reward else moneySupply

def nextGyro (db : Db) (spin : SpinType) : GyroType :=
  if 1 < db.height then (currentGyro db).addSpin spin else GyroType.ofSpin spin

def newEntry (db : Db) (b : Block) (txs : List Transaction) (weight : UInt64) (v : Verified) : BlockEntry where
  block := b
  txs := txs
  weight := weight
  coins := nextCoins (alreadyGeneratedCoins db) v.reward
  gyro := nextGyro db v.spin
  spinPublicKey := v.data.nfo.adr.viewPublicKey
  spinPrevuosHeight := v.data.nfo.prevuosHeight

end

inductive Outcome where
  | added (st : Blockchain)
  | rejected (why : Rejection) (st : Blockchain)
  | raised (f : Fault) (st : Blockchain)

namespace Blockchain

def reject (st : Blockchain) (why : Rejection) (t : Taken) : Blockchain :=
  { st with pool := if why.givesBack then t.pool.returnTxs t.txs else t.pool }

end Blockchain

def handleBlockToMainChain (env : Env) (fuel : Nat) (now : UInt64) (st : Blockchain) (b : Block) :
    Outcome :=
  match headerRejection env now st b with
  | some why => .rejected why st
  | none =>
    match takeTxs env now st b.txHashes { pool := st.pool, txs := [] } with
    | .error (why, t) =>
      let st := if why = .wrongInputs then { st with invalidBlocks := b.hash :: st.invalidBlocks } else st
      .rejected why (st.reject why t)
    | .ok t =>
      match blockWeight st b t.txs with
      | none => .rejected .prunedWithoutWeight (st.reject .prunedWithoutWeight t)
      | some weight =>
        let st := { st with blocksTxsCheck := [] }
        match verifyBlock env fuel now st.db b weight (feeSummary t.txs) with
        | .error (.inl why) => .rejected why (st.reject why t)
        | .error (.inr f) => .raised f { st with pool := t.pool }
        | .ok v =>
          match st.db.addBlock (newEntry st.db b t.txs weight v) with
          | .error _ => .rejected .dbException (st.reject .dbException t)
          | .ok db => .added { st with db, pool := t.pool }

end Gyro
