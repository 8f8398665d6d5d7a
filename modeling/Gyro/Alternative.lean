import Gyro.MainChain

/-!
# Alternative chains

`handle_alternative_block` up to the point where the block is stored beside the
main chain, and the comparison of weights that decides on a reorganization.
-/

namespace Gyro

inductive AltRejection where
  | heightZero
  | checkpointZone
  | oldVersion
  | brokenChain
  | invalidTimestamp
  | checkpoint
  | prevalidation
  | blockData
  | incorrectSpin
  | tipData
  | parentData
  | alreadyExists
  deriving DecidableEq, Repr

abbrev AltExit := AltRejection ⊕ Fault

/-- `get_block_height(b)`: the height the coinbase claims, 0 when it is malformed. -/
def Block.getBlockHeight (b : Block) : UInt64 :=
  match b.spinnerTx.vin with
  | [.gen h] => h
  | _ => 0

def require (ok : Bool) (why : AltRejection) : Except AltExit Unit :=
  if ok then .ok () else .error (.inl why)

def orThrow {α : Type} : Option α → Except AltExit α
  | some x => .ok x
  | none => .error (.inr .dbError)

section
variable (cfg : Config)

/-- No checkpoint at or below the chain height is at or above the block. -/
def isAlternativeBlockAllowed (blockchainHeight blockHeight : UInt64) : Bool :=
  blockHeight ≠ 0 && cfg.checkpoints.all fun p => blockchainHeight < p.1 || p.1 < blockHeight

def checkVersionForHeight (b : Block) (height : UInt64) : Bool :=
  let version := forkVersion cfg.hardForks height
  b.majorVersion = version && version ≤ getBlockVote b

def isACheckpoint (height : UInt64) : Bool := cfg.checkpoints.any (·.1 = height)

end

def altAncestors (st : Blockchain) : Nat → Hash → List AltBlock → Except AltExit (List AltBlock)
  | 0, _, _ => .error (.inr .outOfFuel)
  | fuel + 1, id, chain =>
    match st.altBlocks id with
    | none => .ok chain
    | some ab => altAncestors st fuel ab.block.prevId (ab :: chain)

def completeTimestamps (db : Db) (top : Nat) (timestamps : List UInt64) : List UInt64 :=
  if blockchainTimestampCheckWindow ≤ timestamps.length then timestamps
  else if db.entries.length ≤ top then timestamps
  else
    let need := blockchainTimestampCheckWindow - timestamps.length
    let stop := if need < top then top - need else 0
    timestamps ++ (((db.entries.take (top + 1)).drop (stop + 1)).map (·.block.timestamp)).reverse

def buildAltChain (fuel : Nat) (st : Blockchain) (prevId : Hash) :
    Except AltExit (List AltBlock × List UInt64) :=
  match altAncestors st fuel prevId [] with
  | .error e => .error e
  | .ok [] =>
    match st.db.getBlockHeight prevId with
    | none => .error (.inl .brokenChain)
    | some h => .ok ([], completeTimestamps st.db h.toNat [])
  | .ok (front :: rest) => do
    require (front.height < st.db.height) .brokenChain
    require (st.db.blockExists front.block.prevId) .brokenChain
    let id ← orThrow (st.db.getBlockHashFromHeight (front.height - 1))
    require (id = front.block.prevId) .brokenChain
    let h ← orThrow (st.db.getBlockHeight front.block.prevId)
    let timestamps := (front :: rest).reverse.map (·.block.timestamp)
    return (front :: rest, completeTimestamps st.db h.toNat timestamps)

structure AltParent where
  height : UInt64
  alreadyGeneratedCoins : UInt64
  cumulativeGyro : GyroType

def altParent (st : Blockchain) (chain : List AltBlock) (prevId : Hash) : Except AltExit AltParent :=
  match chain.getLast? with
  | some ab => .ok { height := ab.height, alreadyGeneratedCoins := ab.alreadyGeneratedCoins
                     cumulativeGyro := ab.cumulativeGyro }
  | none => do
    let h ← orThrow (st.db.getBlockHeight prevId)
    let e ← orThrow (st.db.entryAt h)
    return { height := h, alreadyGeneratedCoins := e.coins, cumulativeGyro := e.gyro }

def requireData (b : Block) (why : AltRejection) : Except AltExit SpinnerData :=
  match spinnerDataFromExtra b.spinnerTx SpinnerData.zero with
  | none => .error (.inl why)
  | some data => .ok data

/-- `get_spin` as the alternative path calls it: on the main chain of the moment. -/
def requireSpin (cfg : Config) (db : Db) (data : SpinnerData) : Except AltExit SpinType :=
  match getSpin cfg db data.nfo.proof.txid data.spin with
  | .error f => .error (.inr f)
  | .ok none => .error (.inl .incorrectSpin)
  | .ok (some spin) => .ok spin

def altWeight (st : Blockchain) : List Hash → UInt64 → UInt64
  | [], weight => weight
  | id :: ids, weight =>
    match st.pool.lookup id with
    | some tx => altWeight st ids (weight + tx.weight)
    | none =>
      match st.db.getTx id with
      | some tx => altWeight st ids (weight + tx.weight)
      | none => 0

def requireParentData (st : Blockchain) (chain : List AltBlock) (prevId : Hash) :
    Except AltExit Unit :=
  match chain with
  | _ :: _ => .ok ()
  | [] => do
    let h ← orThrow (st.db.getBlockHeight prevId)
    let parent ← orThrow (st.db.getBlockFromHeight h)
    let _ ← requireData parent .parentData
    return ()

def altRecord (env : Env) (fuel : Nat) (st : Blockchain) (b : Block) :
    Except AltExit (List AltBlock × AltBlock) := do
  let (chain, timestamps) ← buildAltChain fuel st b.prevId
  let parent ← altParent st chain b.prevId
  let height := parent.height + 1
  let reward := b.spinnerTx.amounts.foldl (· + ·) 0
  require (median timestamps ≤ b.timestamp) .invalidTimestamp
  require (passesCheckpoints env.cfg height b.hash) .checkpoint
  require (prevalidateSpinnerTransaction b height (forkVersion env.cfg.hardForks b.getBlockHeight))
    .prevalidation
  let data ← requireData b .blockData
  let spin ← requireSpin env.cfg st.db data
  let tip ← orThrow (st.db.getBlockFromHeight (st.db.height - 1))
  let _ ← requireData tip .tipData
  requireParentData st chain b.prevId
  return (chain, { block := b, height
                   cumulativeWeight := altWeight st b.txHashes b.spinnerTx.weight
                   cumulativeGyro := parent.cumulativeGyro.addSpin spin
                   alreadyGeneratedCoins := nextCoins parent.alreadyGeneratedCoins reward })

def altHeader (cfg : Config) (st : Blockchain) (b : Block) : Except AltExit Unit := do
  require (b.getBlockHeight ≠ 0) .heightZero
  require (isAlternativeBlockAllowed cfg st.db.height b.getBlockHeight) .checkpointZone
  require (checkVersionForHeight cfg b b.getBlockHeight) .oldVersion

namespace Blockchain

def addAltBlock (st : Blockchain) (id : Hash) (ab : AltBlock) : Blockchain :=
  { st with altBlocks := fun k => if k = id then some ab else st.altBlocks k }

def removeAltBlock (st : Blockchain) (id : Hash) : Blockchain :=
  { st with altBlocks := fun k => if k = id then none else st.altBlocks k }

end Blockchain

def storeAlternative (env : Env) (fuel : Nat) (st : Blockchain) (b : Block) :
    Except AltExit (Blockchain × List AltBlock × AltBlock) := do
  let (chain, ab) ← altRecord env fuel st b
  require (st.altBlocks b.hash).isNone .alreadyExists
  return (st.addAltBlock b.hash ab, chain ++ [ab], ab)

variable (main alt : GyroType)

/-- One side of the comparison: the ratio of the sum of the modules to the module of the sum,
scaled, in 256 bits. -/
def chainWeight (scale : BitVec 128) (g : GyroType) : BitVec 256 :=
  scale.setWidth 256 * (g.M + 1).setWidth 256 / (g.getModule + 1).setWidth 256

def outweighs : Bool :=
  let scale := main.M + alt.M
  chainWeight scale main < chainWeight scale alt

end Gyro
