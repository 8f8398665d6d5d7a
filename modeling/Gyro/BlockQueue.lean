import Gyro.Types
import Mathlib.Data.Finset.SDiff

/-!
# The download queue

`block_queue` of `cryptonote_protocol`: the spans asked of peers in the order of their
heights, and beside them the hashes requested and those whose blocks are there.
-/

namespace Gyro

def pruningStripeSize : UInt64 := 4096
def pruningLogStripes : UInt32 := 3
def pruningTipBlocks : UInt64 := 5500

def getPruningLogStripes (pruningSeed : UInt32) : UInt32 := (pruningSeed >>> 7) &&& 0x7

def getPruningStripe (pruningSeed : UInt32) : UInt32 := if pruningSeed = 0 then 0 else 1 + (pruningSeed &&& 0x7f)

/-- The stripe of a block, 0 for the blocks near the tip, which all peers have. -/
def getBlockPruningStripe (blockHeight blockchainHeight : UInt64) (logStripes : UInt32) : UInt32 :=
  if blockchainHeight ≤ blockHeight + pruningTipBlocks then 0
  else (((blockHeight / pruningStripeSize) &&& ((1 <<< logStripes.toUInt64) - 1)) + 1).toUInt32

def hasUnprunedBlock (blockHeight blockchainHeight : UInt64) (pruningSeed : UInt32) : Bool :=
  let stripe := getPruningStripe pruningSeed
  let blockStripe := getBlockPruningStripe blockHeight blockchainHeight (getPruningLogStripes pruningSeed)
  stripe = 0 || (blockStripe = 0 || blockStripe = stripe)

def getNextUnprunedBlockHeight (blockHeight blockchainHeight : UInt64) (pruningSeed : UInt32) : UInt64 :=
  let stripe := getPruningStripe pruningSeed
  if cryptonoteMaxBlockNumber + 1 < blockHeight then blockHeight
  else if cryptonoteMaxBlockNumber + 1 < blockchainHeight then blockHeight
  else if stripe = 0 then blockHeight
  else if blockchainHeight ≤ blockHeight + pruningTipBlocks then blockHeight
  else
    let seedLogStripes := getPruningLogStripes pruningSeed
    let logStripes := if seedLogStripes ≠ 0 then seedLogStripes.toUInt64 else pruningLogStripes.toUInt64
    let blockPruningStripe := (((blockHeight / pruningStripeSize) &&& ((1 <<< logStripes) - 1)) + 1).toUInt32
    if blockPruningStripe = stripe then blockHeight
    else
      let cycles := (blockHeight / pruningStripeSize) >>> logStripes
      let cycleStart := cycles + if blockPruningStripe < stripe then 0 else 1
      let h := cycleStart * (pruningStripeSize <<< logStripes) + (stripe - 1).toUInt64 * pruningStripeSize
      if blockchainHeight < h + pruningTipBlocks then
        if blockchainHeight < pruningTipBlocks then 0 else blockchainHeight - pruningTipBlocks
      else if h < blockHeight then blockHeight
      else h

abbrev Uuid := BitVec 128

structure BlockCompleteEntry where
  block : Blob
  txs : List Blob
  deriving DecidableEq

structure Span where
  startBlockHeight : UInt64
  hashes : List Hash
  blocks : List BlockCompleteEntry
  connectionId : Uuid
  nblocks : UInt64
  deriving DecidableEq

/-- The spans are a set ordered by the first heights, so there is one at most
for each height. -/
structure BlockQueue where
  blocks : List Span
  sorted : blocks.Pairwise fun s t => s.startBlockHeight < t.startBlockHeight
  requestedHashes : Finset Hash
  haveBlocks : Finset Hash

namespace BlockQueue

def empty : BlockQueue := { blocks := [], sorted := List.Pairwise.nil, requestedHashes := ∅, haveBlocks := ∅ }

variable (q : BlockQueue)

def requested (hash : Hash) : Bool := hash ∈ q.requestedHashes

def haveHash (hash : Hash) : Bool := hash ∈ q.haveBlocks

/-- `blocks.insert`: a span with the first height of another one is refused. -/
def insert (s : Span) : BlockQueue :=
  if h : ∀ t ∈ q.blocks, t.startBlockHeight ≠ s.startBlockHeight then
    { q with
      blocks := q.blocks.filter (·.startBlockHeight < s.startBlockHeight) ++
        s :: q.blocks.filter (s.startBlockHeight < ·.startBlockHeight)
      sorted := by
        refine List.pairwise_append.mpr ⟨q.sorted.filter _, List.pairwise_cons.mpr ⟨?_, q.sorted.filter _⟩, ?_⟩
        · intro t ht
          simpa using (List.mem_filter.mp ht).2
        · intro t ht u hu
          have hlt : t.startBlockHeight < s.startBlockHeight := by simpa using (List.mem_filter.mp ht).2
          rcases List.mem_cons.mp hu with rfl | hu
          · exact hlt
          · have hgt : s.startBlockHeight < u.startBlockHeight := by simpa using (List.mem_filter.mp hu).2
            exact UInt64.lt_trans hlt hgt }
  else q

/-- `erase_block`: the span goes, and its hashes go from both sets. -/
def eraseBlock (s : Span) : BlockQueue where
  blocks := q.blocks.filter (·.startBlockHeight ≠ s.startBlockHeight)
  sorted := q.sorted.filter _
  requestedHashes := q.requestedHashes \ s.hashes.toFinset
  haveBlocks := q.haveBlocks \ s.hashes.toFinset

def eraseBlocks (p : Span → Bool) : BlockQueue :=
  q.blocks.foldl (fun q s => if p s then q.eraseBlock s else q) q

def flushSpans (connectionId : Uuid) (all : Bool) : BlockQueue :=
  q.eraseBlocks fun s => s.connectionId = connectionId && (all || s.blocks = [])

def flushStaleSpans (liveConnections : List Uuid) : BlockQueue :=
  q.eraseBlocks fun s => s.blocks = [] && s.connectionId ∉ liveConnections

def removeSpans (connectionId : Uuid) (startBlockHeight : UInt64) : BlockQueue :=
  q.eraseBlocks fun s => s.connectionId = connectionId && s.startBlockHeight ≤ startBlockHeight

def removeSpan (startBlockHeight : UInt64) : BlockQueue × Option (List Hash) :=
  match q.blocks.find? (·.startBlockHeight = startBlockHeight) with
  | some s => (q.eraseBlock s, some s.hashes)
  | none => (q, none)

def setSpanHashes (startHeight : UInt64) (connectionId : Uuid) (hashes : List Hash) : BlockQueue :=
  match q.blocks.find? fun s => s.startBlockHeight = startHeight && s.connectionId = connectionId with
  | some s =>
    let q := q.eraseBlock s
    { q with requestedHashes := q.requestedHashes ∪ hashes.toFinset }.insert { s with hashes }
  | none => q

def addBlocks (height : UInt64) (bcel : List BlockCompleteEntry) (connectionId : Uuid) : BlockQueue :=
  let (q, removed) := q.removeSpan height
  let q := q.insert ⟨height, [], bcel, connectionId, UInt64.ofNat bcel.length⟩
  match removed with
  | some hashes =>
    { q with
      requestedHashes := q.requestedHashes ∪ hashes.toFinset
      haveBlocks := q.haveBlocks ∪ hashes.toFinset }.setSpanHashes height connectionId hashes
  | none => q

/-- `add_blocks` of a span to be asked for. It throws when the span is empty. -/
def addScheduled (height nblocks : UInt64) (connectionId : Uuid) : BlockQueue :=
  if nblocks = 0 then q else q.insert ⟨height, [], [], connectionId, nblocks⟩

end BlockQueue

structure SpanRequest where
  firstBlockHeight : UInt64
  lastBlockHeight : UInt64
  maxBlocks : UInt64
  connectionId : Uuid
  syncPrunedBlocks : Bool
  localPruningSeed : UInt32
  pruningSeed : UInt32
  blockchainHeight : UInt64
  blockHashes : List (Hash × UInt64)
  /-- The number of hashes is a `size_t`. -/
  size_lt : blockHashes.length < 2 ^ 64

namespace SpanRequest

variable (r : SpanRequest)

def blockHashesStartHeight : UInt64 := r.lastBlockHeight - UInt64.ofNat r.blockHashes.length + 1

/-- Where to start if the peer's own stripe comes next. The height is cut to 32 bits. -/
def skipPruned (spanStartHeight : UInt64) : UInt64 :=
  if !r.syncPrunedBlocks then
    let next := (getNextUnprunedBlockHeight spanStartHeight r.blockchainHeight r.pruningSeed).toUInt32.toUInt64
    if spanStartHeight < next ∧ next < spanStartHeight + pruningStripeSize then next else spanStartHeight
  else spanStartHeight

/-- The hashes of a span: while the peer has the blocks in full or, where pruned blocks do, while
all are pruned or all full for this node. -/
def spanHashes (spanStartHeight : UInt64) (firstIsPruned : Bool) : UInt64 → List (Hash × UInt64) → List Hash
  | _, [] => []
  | spanLength, (hash, _) :: rest =>
    let height := spanStartHeight + spanLength
    if spanLength < r.maxBlocks ∧
        (r.syncPrunedBlocks ∨ hasUnprunedBlock height r.blockchainHeight r.pruningSeed) then
      if r.syncPrunedBlocks ∧ firstIsPruned = hasUnprunedBlock height r.blockchainHeight r.localPruningSeed then []
      else hash :: spanHashes spanStartHeight firstIsPruned (spanLength + 1) rest
    else []

end SpanRequest

namespace BlockQueue

variable (q : BlockQueue)

def skipRequested : List (Hash × UInt64) → UInt64 → List (Hash × UInt64) × UInt64
  | [], height => ([], height)
  | (hash, n) :: rest, height =>
    if q.requested hash then skipRequested rest (height + 1) else ((hash, n) :: rest, height)

/-- The first height and the hashes of the span that `reserve_span` settles on. -/
def nextSpan (r : SpanRequest) : Option (UInt64 × List Hash) :=
  if r.lastBlockHeight < r.firstBlockHeight ∨ r.maxBlocks = 0 then none
  else if r.lastBlockHeight < UInt64.ofNat r.blockHashes.length then none
  else
    let start := r.skipPruned (q.skipRequested r.blockHashes r.blockHashesStartHeight).2
    if UInt64.ofNat r.blockHashes.length + r.blockHashesStartHeight ≤ start then none
    else
      let (left, start) :=
        q.skipRequested (r.blockHashes.drop (start - r.blockHashesStartHeight).toNat) start
      let firstIsPruned := r.syncPrunedBlocks && !hasUnprunedBlock start r.blockchainHeight r.localPruningSeed
      match r.spanHashes start firstIsPruned 0 left with
      | [] => none
      | hash :: hashes => some (start, hash :: hashes)

/-- `reserve_span`, with the first height and the length of the span, or zeros. -/
def reserveSpan (r : SpanRequest) : BlockQueue × UInt64 × UInt64 :=
  match q.nextSpan r with
  | none => (q, 0, 0)
  | some (start, hashes) =>
    let spanLength := UInt64.ofNat hashes.length
    ((q.addScheduled start spanLength r.connectionId).setSpanHashes start r.connectionId hashes, start, spanLength)

end BlockQueue

end Gyro
