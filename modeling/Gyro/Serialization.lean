import Gyro.Types
import Gyro.Crypto.Keccak

/-!
# Spinner data as bytes

The binary archive of `serialization/`, for the two records in a transaction extra. A
reader returns a value with the bytes after it, or nothing.
-/

namespace Gyro

abbrev Reader (α : Type) := StateT Blob Option α

def ofBytes (w : Nat) (bytes : Blob) : BitVec w :=
  bytes.foldr (fun b acc => (acc <<< 8) ||| b.toBitVec.setWidth w) 0

def readBlob (n : Nat) : Reader Blob := fun bytes =>
  if n ≤ bytes.length then some (bytes.take n, bytes.drop n) else none

def readKey : Reader (BitVec 256) := do
  let bytes ← readBlob 32
  return ofBytes 256 bytes

def readSignature : Reader Signature := do
  let bytes ← readBlob 64
  return ofBytes 512 bytes

/-- From the digit at `shift` on. The end of the input ends the number; a digit that does not fit
and a zero digit after the first are errors. -/
def readVarintFrom : Nat → UInt64 → Blob → Option (UInt64 × Blob)
  | _, write, [] => some (write, [])
  | shift, write, byte :: rest =>
    if 64 ≤ shift + 7 ∧ 2 ^ (64 - shift) ≤ byte.toNat then none
    else if byte = 0 ∧ shift ≠ 0 then none
    else
      let write := write ||| ((byte &&& 0x7f).toUInt64 <<< UInt64.ofNat shift)
      if byte &&& 0x80 = 0 then some (write, rest) else readVarintFrom (shift + 7) write rest

def readVarint : Reader UInt64 := readVarintFrom 0 0

def readMany {α : Type} (read : Reader α) : Nat → Reader (List α)
  | 0 => return []
  | n + 1 => do
    let a ← read
    let as ← readMany read n
    return a :: as

/-- A vector: its size, checked against the bytes that remain, then its elements. -/
def readVector {α : Type} (read : Reader α) : Reader (List α) := do
  let cnt ← readVarint
  let rest ← get
  if rest.length < cnt.toNat then failure
  readMany read cnt.toNat

def readProofPair : Reader ProofPair := do
  let key ← readKey
  let sig ← readSignature
  return { key, sig }

def readSpinnerTxProof : Reader SpinnerTxProof := do
  let txid ← readKey
  let pairs ← readVector readProofPair
  return { txid, pairs }

def readSpinnerInfo : Reader SpinnerInfo := do
  let spendPublicKey ← readKey
  let viewPublicKey ← readKey
  let proof ← readSpinnerTxProof
  let pub ← readKey
  let sig ← readSignature
  let prevuosHeight ← readVarint
  return { adr := { spendPublicKey, viewPublicKey }, proof, pub, sig, prevuosHeight }

def readSpinnerData : Reader SpinnerData := do
  let nfo ← readSpinnerInfo
  let approximatelyCount ← readVarint
  let locked ← readVarint
  let mediumLocked ← readVarint
  let spin ← readVarint
  let mediumSpin ← readVarint
  let interval ← readVarint
  let mediumInterval ← readVarint
  return { nfo, approximatelyCount, locked, mediumLocked, spin, mediumSpin, interval,
           mediumInterval }

def parseBinary {α : Type} (read : Reader α) (blob : Blob) : Option α :=
  match read blob with
  | some (a, []) => some a
  | _ => none

def parseSpinnerData (blob : Blob) : Option SpinnerData := parseBinary readSpinnerData blob

def parseSpinnerTxProof (blob : Blob) : Option SpinnerTxProof :=
  parseBinary readSpinnerTxProof blob

/-- `get_spinner_data(extra, data)`: an extra without the field leaves `data` as it is. -/
def spinnerDataFromExtra (tx : Transaction) (data : SpinnerData) : Option SpinnerData :=
  match tx.spinDataFromExtra with
  | none => some data
  | some blob => parseSpinnerData blob

def Block.spinnerData (b : Block) : SpinnerData :=
  (spinnerDataFromExtra b.spinnerTx SpinnerData.zero).getD SpinnerData.zero

def Block.viewKey (b : Block) : PublicKey := b.spinnerData.nfo.adr.viewPublicKey

def writeVarintFrom : Nat → UInt64 → Blob
  | 0, _ => []
  | fuel + 1, i =>
    if 0x80 ≤ i then ((i &&& 0x7f).toUInt8 ||| 0x80) :: writeVarintFrom fuel (i >>> 7)
    else [i.toUInt8]

def writeVarint (i : UInt64) : Blob := writeVarintFrom 10 i

def writeProofPair (p : ProofPair) : Blob := bytesOf 32 p.key ++ bytesOf 64 p.sig

def writeSpinnerTxProof (p : SpinnerTxProof) : Blob :=
  hashBytes p.txid ++ writeVarint (UInt64.ofNat p.pairs.length) ++
    p.pairs.flatMap writeProofPair

def writeSpinnerInfo (i : SpinnerInfo) : Blob :=
  bytesOf 32 i.adr.spendPublicKey ++ bytesOf 32 i.adr.viewPublicKey ++
    writeSpinnerTxProof i.proof ++ bytesOf 32 i.pub ++ bytesOf 64 i.sig ++
    writeVarint i.prevuosHeight

def writeSpinnerData (d : SpinnerData) : Blob :=
  writeSpinnerInfo d.nfo ++ writeVarint d.approximatelyCount ++ writeVarint d.locked ++
    writeVarint d.mediumLocked ++ writeVarint d.spin ++ writeVarint d.mediumSpin ++
    writeVarint d.interval ++ writeVarint d.mediumInterval

end Gyro
