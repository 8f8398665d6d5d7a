import Gyro.Lib.Runs
import Gyro.Lib.Tally
import Gyro.Types

/-!
# Hard forks and votes

`HardFork` keeps the scheduled forks and a window of votes beside the database. A fork
takes effect at its height once enough blocks of the window voted for it or a later
one.
-/

namespace Gyro

open Runs Tally

structure HardforkT where
  version : UInt8
  height : UInt64
  threshold : UInt8
  time : Int
  deriving DecidableEq, Repr

def HardforkT.Before (f g : HardforkT) : Prop :=
  f.version < g.version ∧ f.height < g.height ∧ f.time < g.time

instance (f g : HardforkT) : Decidable (f.Before g) := inferInstanceAs (Decidable (_ ∧ _ ∧ _))

/-- `add_fork`: the forks after the call, and whether it returned true. -/
def addFork (heights : List HardforkT) (f : HardforkT) : List HardforkT × Bool :=
  if f.version = 0 then (heights, false)
  else if ∃ last ∈ heights.getLast?, f.version ≤ last.version then (heights, false)
  else if ∃ last ∈ heights.getLast?, f.height ≤ last.height then (heights, false)
  else if ∃ last ∈ heights.getLast?, f.time ≤ last.time then (heights, false)
  else if 100 < f.threshold then (heights, false)
  else (heights ++ [f], true)

/-- The forks registered when a table is passed to `add_fork` entry by entry. -/
def registerForks (table : List HardforkT) : List HardforkT :=
  table.foldl (fun heights f => (addFork heights f).1) []

structure HardFork where
  originalVersion : UInt8
  windowSize : UInt64
  heights : List HardforkT
  /-- The constructor throws on an empty window. -/
  window_pos : 0 < windowSize.toNat
  ordered : heights.Pairwise HardforkT.Before
  /-- `init` adds a placeholder when no fork is registered. -/
  nonempty : heights ≠ []

structure VotingState where
  versions : List UInt8
  lastVersions : UInt8 → UInt32
  currentForkIndex : Nat

/-- The blocks, oldest first, and the versions stored, which stay when a block is removed. -/
structure ForkDb where
  blocks : List Block
  hfVersions : Nat → Option UInt8

def ForkDb.setHardForkVersion (db : ForkDb) (height : Nat) (version : UInt8) : ForkDb :=
  { db with hfVersions := fun h => if h = height then some version else db.hfVersions h }

namespace VotingState

def cleared : VotingState := { versions := [], lastVersions := fun _ => 0, currentForkIndex := 0 }

def pushBack (st : VotingState) (v : UInt8) : VotingState :=
  { st with versions := st.versions ++ [v], lastVersions := incr st.lastVersions v }

def expire (windowSize : UInt64) : List UInt8 → (UInt8 → UInt32) → List UInt8 × (UInt8 → UInt32)
  | [], last => ([], last)
  | v :: vs, last =>
    if windowSize.toNat ≤ vs.length + 1 then expire windowSize vs (decr last v) else (v :: vs, last)

end VotingState

namespace HardFork

variable (hf : HardFork) (st : VotingState)

def getEffectiveVersion (votingVersion : UInt8) : UInt8 :=
  match hf.heights.getLast? with
  | none => votingVersion
  | some last => if last.version < votingVersion then last.version else votingVersion

def voteOf (b : Block) : UInt8 := hf.getEffectiveVersion (getBlockVote b)

def versionAt (i : Nat) : UInt8 := ((hf.heights[i]?).map (·.version)).getD 0

def getCurrentVersion : UInt8 := hf.versionAt st.currentForkIndex

def getIdealVersion (height : Nat) : UInt8 :=
  match (hf.heights.drop 1).reverse.find? (·.height.toNat ≤ height) with
  | some f => f.version
  | none => hf.originalVersion

def votedFrom (height : Nat) : Nat → UInt32 → Nat
  | 0, _ => st.currentForkIndex
  | n + 1, votes =>
    match hf.heights[n]? with
    | none => st.currentForkIndex
    | some f =>
      let accumulated := votes + st.lastVersions f.version
      let threshold := ((hf.windowSize * f.threshold.toUInt64 + 99) / 100).toUInt32
      if f.height.toNat ≤ height ∧ threshold ≤ accumulated then n else votedFrom height n accumulated

def getVotedForkIndex (height : Nat) : Nat := hf.votedFrom st height hf.heights.length 0

def raiseForkIndex (height : Nat) : VotingState :=
  let voted := hf.getVotedForkIndex st height % 256
  if st.currentForkIndex < voted then { st with currentForkIndex := voted } else st

def doCheck (blockVersion votingVersion : UInt8) : Bool :=
  blockVersion = hf.getCurrentVersion st && hf.getCurrentVersion st ≤ votingVersion

def check (b : Block) : Bool := hf.doCheck st b.majorVersion (getBlockVote b)

def countVote (v : UInt8) (height : Nat) : VotingState :=
  let (versions, last) := VotingState.expire hf.windowSize st.versions st.lastVersions
  hf.raiseForkIndex (VotingState.pushBack { st with versions := versions, lastVersions := last } v) height

/-- `add`: the state and the database after it; `none` is `return false`. -/
def add (db : ForkDb) (b : Block) (height : Nat) : Option (VotingState × ForkDb) :=
  if hf.check st b then
    some (hf.countVote st (hf.voteOf b) (height + 1), db.setHardForkVersion height (hf.getCurrentVersion st))
  else none

def readVotes (db : ForkDb) (first count : Nat) : Option VotingState :=
  (List.range' first count).foldlM
    (fun st h => (db.blocks[h]?).map fun b => VotingState.pushBack st (hf.voteOf b)) VotingState.cleared

/-- `rescan_from_block_height`; `none` is an exception of the database. -/
def rescanFromBlockHeight (db : ForkDb) (height : Nat) : Option VotingState :=
  if db.blocks.length ≤ height then some st
  else do
    let votes ← hf.readVotes db height (db.blocks.length - height)
    let lastv ← db.hfVersions (db.blocks.length - 1)
    let index := hf.heights.dropLast.findIdx (·.version = lastv)
    some (hf.raiseForkIndex { votes with currentForkIndex := index } db.blocks.length)

def rescanFromChainHeight (db : ForkDb) (height : Nat) : Option VotingState :=
  if height = 0 then some st else hf.rescanFromBlockHeight st db (height - 1)

def init (db : ForkDb) : Option VotingState :=
  hf.rescanFromChainHeight VotingState.cleared db
    (if hf.windowSize.toNat < db.blocks.length then db.blocks.length - (hf.windowSize.toNat - 1) else 1)

def lowerForkIndex (startVersion : UInt8) : Nat → Nat
  | 0 => 0
  | i + 1 => if startVersion < hf.versionAt (i + 1) then lowerForkIndex startVersion i else i + 1

def startVersion (db : ForkDb) (height : Nat) : Option UInt8 :=
  if height = 0 then some hf.originalVersion else db.hfVersions height

def addAgain (first count : Nat) (st : VotingState) (db : ForkDb) : Option (VotingState × ForkDb) :=
  (List.range' first count).foldlM
    (fun s h => (s.2.blocks[h]?).map fun b => (hf.add s.1 s.2 b h).getD s) (st, db)

/-- `reorganize_from_block_height`; the state is kept where it returns false. -/
def reorganizeFromBlockHeight (db : ForkDb) (height : Nat) : Option (VotingState × ForkDb) :=
  if db.blocks.length ≤ height then some (st, db)
  else do
    let rescanHeight :=
      if hf.windowSize.toNat - 1 ≤ height then height - (hf.windowSize.toNat - 1) else 0
    let startVersion ← hf.startVersion db height
    let votes ← hf.readVotes db rescanHeight (height + 1 - rescanHeight)
    let index := hf.lowerForkIndex startVersion st.currentForkIndex
    let st := hf.raiseForkIndex { votes with currentForkIndex := index } (height + 1)
    hf.addAgain (height + 1) (db.blocks.length - (height + 1)) st db

def reorganizeFromChainHeight (db : ForkDb) (height : Nat) : Option (VotingState × ForkDb) :=
  if height = 0 then some (st, db) else hf.reorganizeFromBlockHeight st db (height - 1)

/-- Over the `n` heights from `newChainHeight` on, highest first: the newest vote leaves, and the
version stored for the removed block enters in front. -/
def popVotes (db : ForkDb) (newChainHeight : Nat) : Nat → VotingState → Option VotingState
  | 0, st => some st
  | n + 1, st => do
    let back ← st.versions.getLast?
    let version ← db.hfVersions (newChainHeight + n)
    popVotes db newChainHeight n
      { st with
        versions := version :: st.versions.dropLast
        lastVersions := incr (decr st.lastVersions back) version }

def scheduledIndex (height : Nat) : Nat → Nat
  | 0 => 0
  | i + 1 =>
    if ((hf.heights[i + 1]?).map (·.height.toNat)).getD 0 ≤ height then i + 1 else scheduledIndex height i

/-- After the blocks have left the database; `none` is an exception. With no block left the counter
wraps and the database throws. -/
def onBlockPopped (db : ForkDb) (nblocks : Nat) : Option VotingState :=
  if nblocks = 0 ∨ db.blocks.length = 0 then none
  else (popVotes db db.blocks.length nblocks st).map fun st =>
    { st with currentForkIndex := hf.scheduledIndex db.blocks.length (hf.heights.length - 1) }

end HardFork

/-! ## The object beside the database -/

structure ForkNode where
  db : ForkDb
  st : VotingState

namespace HardFork

variable (hf : HardFork)

def start : ForkNode := { db := { blocks := [], hfVersions := fun _ => none }, st := VotingState.cleared }

/-- A block is added to the database and counted; none that `check` refuses is added. -/
def addBlock (s : ForkNode) (b : Block) : Option ForkNode :=
  (hf.add s.st s.db b s.db.blocks.length).map fun (st, db) =>
    { db := { db with blocks := db.blocks ++ [b] }, st := st }

end HardFork

inductive ForkOp where
  | add (b : Block)
  | pop (nblocks : Nat)
  | reorganize (height : Nat)
  | init

def forkStep (hf : HardFork) (s : ForkNode) : ForkOp → Option ForkNode
  | .add b => hf.addBlock s b
  | .pop nblocks =>
    if nblocks ≤ s.db.blocks.length then
      let db := { s.db with blocks := s.db.blocks.take (s.db.blocks.length - nblocks) }
      (hf.onBlockPopped s.st db nblocks).map fun st => { db := db, st := st }
    else none
  | .reorganize height =>
    (hf.reorganizeFromChainHeight s.st s.db height).map fun (st, db) => { db := db, st := st }
  | .init => (hf.init s.db).map fun st => { s with st := st }

end Gyro
