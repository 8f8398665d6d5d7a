import Gyro.Archive

/-!
# Transactions and blocks as bytes

The serialization of `cryptonote_basic.h` and `rctTypes.h`, one format for both
directions. Fields that are not serialized are left out, and a transaction is a full one.
-/

namespace Gyro.Wire

open WireFormat

def word (n : Nat) : WireFormat (BitVec (8 * n)) :=
  (blob n).via (ofBytes (8 * n)) (fun x => some (bytesOf n x))
    (by
      intro b bytes h
      obtain rfl := length_of_write_blob h
      rw [bytesOf_ofBytes le_rfl])
    (by
      intro b x h
      cases h
      exact ofBytes_bytesOf rfl)

def key : WireFormat (BitVec 256) := word 32

def signature : WireFormat Signature := word 64

def uint32 : WireFormat UInt32 := (word 4).iso UInt32.ofBitVec UInt32.toBitVec (fun _ => rfl) (fun _ => rfl)

def varint64 : WireFormat UInt64 :=
  (number 64 word_bits_pos).via UInt64.ofNat (fun u => some u.toNat)
    (fun _ _ h => congrArg some (UInt64.toNat_ofNat_of_lt' (lt_of_write_number h)))
    (by
      intro n u h
      cases h
      exact UInt64.ofNat_toNat)

def varint32 : WireFormat UInt32 :=
  (number 32 (by decide)).via UInt32.ofNat (fun u => some u.toNat)
    (fun _ _ h => congrArg some (UInt32.toNat_ofNat_of_lt' (lt_of_write_number h)))
    (by
      intro n u h
      cases h
      exact UInt32.ofNat_toNat)

def varint8 : WireFormat UInt8 :=
  (number 8 (by decide)).via UInt8.ofNat (fun u => some u.toNat)
    (fun _ _ h => congrArg some (UInt8.toNat_ofNat_of_lt' (lt_of_write_number h)))
    (by
      intro n u h
      cases h
      exact UInt8.ofNat_toNat)

theorem solid_word {n : Nat} (hn : 0 < n) : (word n).Solid := by
  exact solid_via (solid_blob hn)

theorem solid_key : key.Solid := solid_word (by decide)

theorem solid_varint64 : varint64.Solid := by
  exact solid_via (solid_number (by decide))

def keys : WireFormat (List (BitVec 256)) := vector key solid_key

def bytes : WireFormat Blob := vector byte solid_byte

structure TxoutToScript where
  keys : List PublicKey
  script : Blob
  deriving DecidableEq

inductive TxIn where
  | gen (height : UInt64)
  | toScript (prev : Hash) (prevout : UInt64) (sigset : Blob)
  | toScripthash (prev : Hash) (prevout : UInt64) (script : TxoutToScript) (sigset : Blob)
  | toKey (amount : UInt64) (keyOffsets : List UInt64) (kImage : BitVec 256)
  deriving DecidableEq

inductive TxOutTarget where
  | toScript (script : TxoutToScript)
  | toScripthash (hash : Hash)
  | toKey (key : PublicKey)
  deriving DecidableEq

structure TxOut where
  amount : UInt64
  target : TxOutTarget
  deriving DecidableEq

def txoutToScript : WireFormat TxoutToScript :=
  (keys.pair bytes).iso (fun p => ⟨p.1, p.2⟩) (fun s => (s.keys, s.script)) (fun _ => rfl) (fun _ => rfl)

def TxIn.tag : TxIn → UInt8
  | .gen _ => 0xff
  | .toScript .. => 0x0
  | .toScripthash .. => 0x1
  | .toKey .. => 0x2

def txinGen : WireFormat TxIn :=
  varint64.via .gen (fun | .gen h => some h | _ => none) (fun _ _ _ => rfl) (by rintro _ (_ | _ | _ | _) ⟨⟩; rfl)

def txinToScript : WireFormat TxIn :=
  (key.pair (varint64.pair bytes)).via (fun (prev, prevout, sigset) => .toScript prev prevout sigset)
    (fun | .toScript prev prevout sigset => some (prev, prevout, sigset) | _ => none) (fun _ _ _ => rfl)
    (by rintro _ (_ | _ | _ | _) ⟨⟩; rfl)

def txinToScripthash : WireFormat TxIn :=
  (key.pair (varint64.pair (txoutToScript.pair bytes))).via
    (fun (prev, prevout, script, sigset) => .toScripthash prev prevout script sigset)
    (fun | .toScripthash prev prevout script sigset => some (prev, prevout, script, sigset) | _ => none)
    (fun _ _ _ => rfl) (by rintro _ (_ | _ | _ | _) ⟨⟩; rfl)

def txinToKey : WireFormat TxIn :=
  (varint64.pair ((vector varint64 solid_varint64).pair key)).via
    (fun (amount, keyOffsets, kImage) => .toKey amount keyOffsets kImage)
    (fun | .toKey amount keyOffsets kImage => some (amount, keyOffsets, kImage) | _ => none) (fun _ _ _ => rfl)
    (by rintro _ (_ | _ | _ | _) ⟨⟩; rfl)

/-- The format behind a tag, and no input but those with that tag. -/
def txinTagged (t : UInt8) : WireFormat TxIn :=
  if t = 0xff then txinGen
  else if t = 0x0 then txinToScript
  else if t = 0x1 then txinToScripthash
  else if t = 0x2 then txinToKey
  else fail

theorem tag_of_txinTagged {t : UInt8} {i : TxIn} {bytes : Blob} (h : (txinTagged t).write i = some bytes) :
    i.tag = t := by
  unfold txinTagged at h
  split_ifs at h with h₁ h₂ h₃ h₄
  · cases i <;> first | exact h₁.symm | cases h
  · cases i <;> first | exact h₂.symm | cases h
  · cases i <;> first | exact h₃.symm | cases h
  · cases i <;> first | exact h₄.symm | cases h
  · cases h

def txin : WireFormat TxIn := variant TxIn.tag txinTagged tag_of_txinTagged

def TxOutTarget.tag : TxOutTarget → UInt8
  | .toScript _ => 0x0
  | .toScripthash _ => 0x1
  | .toKey _ => 0x2

def targetTagged (t : UInt8) : WireFormat TxOutTarget :=
  if t = 0x0 then
    txoutToScript.via .toScript (fun | .toScript s => some s | _ => none) (fun _ _ _ => rfl)
      (by rintro _ (_ | _ | _) ⟨⟩; rfl)
  else if t = 0x1 then
    key.via .toScripthash (fun | .toScripthash h => some h | _ => none) (fun _ _ _ => rfl)
      (by rintro _ (_ | _ | _) ⟨⟩; rfl)
  else if t = 0x2 then
    key.via .toKey (fun | .toKey k => some k | _ => none) (fun _ _ _ => rfl) (by rintro _ (_ | _ | _) ⟨⟩; rfl)
  else fail

theorem tag_of_targetTagged {t : UInt8} {o : TxOutTarget} {bytes : Blob}
    (h : (targetTagged t).write o = some bytes) : o.tag = t := by
  unfold targetTagged at h
  split_ifs at h with h₁ h₂ h₃
  · cases o <;> first | exact h₁.symm | cases h
  · cases o <;> first | exact h₂.symm | cases h
  · cases o <;> first | exact h₃.symm | cases h
  · cases h

def txOutTarget : WireFormat TxOutTarget := variant TxOutTarget.tag targetTagged tag_of_targetTagged

def txOut : WireFormat TxOut :=
  (varint64.pair txOutTarget).iso (fun p => ⟨p.1, p.2⟩) (fun o => (o.amount, o.target)) (fun _ => rfl) (fun _ => rfl)

theorem solid_txin : txin.Solid := by
  unfold txin variant
  exact solid_via (solid_sigma solid_byte _)

theorem solid_txOut : txOut.Solid := by
  unfold txOut iso
  exact solid_via (solid_sigma solid_varint64 _)

structure TransactionPrefix where
  version : UInt64
  unlockTime : UInt64
  vin : List TxIn
  vout : List TxOut
  extra : Blob
  deriving DecidableEq

def currentTransactionVersion : UInt64 := 2

def transactionPrefix : WireFormat TransactionPrefix :=
  ((varint64.guard fun version => !(version == 0 || version > currentTransactionVersion)).pair
      (varint64.pair ((vector txin solid_txin).pair ((vector txOut solid_txOut).pair bytes)))).iso
    (fun (version, unlockTime, vin, vout, extra) => ⟨version, unlockTime, vin, vout, extra⟩)
    (fun p => (p.version, p.unlockTime, p.vin, p.vout, p.extra)) (fun _ => rfl) (fun _ => rfl)

def rctTypeNull : UInt8 := 0
def rctTypeFull : UInt8 := 1
def rctTypeSimple : UInt8 := 2
def rctTypeBulletproof : UInt8 := 3
def rctTypeBulletproof2 : UInt8 := 4

def isRctBulletproof (type : UInt8) : Bool := type = rctTypeBulletproof ∨ type = rctTypeBulletproof2

def knownRctType (type : UInt8) : Bool := type = rctTypeFull ∨ type = rctTypeSimple ∨ isRctBulletproof type

structure RctSigBase where
  type : UInt8
  txnFee : UInt64
  pseudoOuts : List (BitVec 256)
  ecdhInfo : List EcdhTuple
  outPk : List (BitVec 256)
  deriving DecidableEq

def RctSigBase.null : RctSigBase := ⟨rctTypeNull, 0, [], [], []⟩

/-- From the second bulletproof type on, eight bytes of the amount and no mask. -/
def ecdhTuple (type : UInt8) : WireFormat EcdhTuple :=
  if type = rctTypeBulletproof2 then
    (word 8).via (fun amount => ⟨0, amount.setWidth 256⟩)
      (fun e => if e = ⟨0, (e.amount.setWidth 64).setWidth 256⟩ then some (e.amount.setWidth 64) else none)
      (by
        intro amount _ _
        simp)
      (by
        intro amount e h
        split at h
        · rename_i heq
          cases h
          exact heq.symm
        · cases h)
  else (key.pair key).iso (fun p => ⟨p.1, p.2⟩) (fun e => (e.mask, e.amount)) (fun _ => rfl) (fun _ => rfl)

def rctSigBase (inputs outputs : Nat) : WireFormat RctSigBase :=
  (byte.sigma fun type =>
      if type = rctTypeNull then const (0, [], [], [])
      else if knownRctType type then
        varint64.pair ((if type = rctTypeSimple then many inputs key else const []).pair
          ((many outputs (ecdhTuple type)).pair (many outputs key)))
      else fail).iso
    (fun (type, txnFee, pseudoOuts, ecdhInfo, outPk) => ⟨type, txnFee, pseudoOuts, ecdhInfo, outPk⟩)
    (fun b => (b.type, b.txnFee, b.pseudoOuts, b.ecdhInfo, b.outPk)) (fun _ => rfl) (fun _ => rfl)

/-- Written as it lies in memory: two times 64 keys and one, and 64 keys. -/
structure RangeSig where
  asig : Blob
  ci : Blob
  deriving DecidableEq

structure Bulletproof where
  A : BitVec 256
  S : BitVec 256
  T1 : BitVec 256
  T2 : BitVec 256
  taux : BitVec 256
  mu : BitVec 256
  L : List (BitVec 256)
  R : List (BitVec 256)
  a : BitVec 256
  b : BitVec 256
  t : BitVec 256
  deriving DecidableEq

structure MgSig where
  ss : List (List (BitVec 256))
  cc : BitVec 256
  deriving DecidableEq

structure RctSigPrunable where
  rangeSigs : List RangeSig
  bulletproofs : List Bulletproof
  mgs : List MgSig
  pseudoOuts : List (BitVec 256)
  deriving DecidableEq

def RctSigPrunable.empty : RctSigPrunable := ⟨[], [], [], []⟩

def rangeSig : WireFormat RangeSig :=
  ((blob (129 * 32)).pair (blob (64 * 32))).iso (fun p => ⟨p.1, p.2⟩) (fun r => (r.asig, r.ci)) (fun _ => rfl)
    (fun _ => rfl)

def bulletproof : WireFormat Bulletproof :=
  ((key.pair (key.pair (key.pair (key.pair (key.pair (key.pair (keys.pair (keys.pair (key.pair
      (key.pair key)))))))))).iso
    (fun (A, S, T1, T2, taux, mu, L, R, a, b, t) => ⟨A, S, T1, T2, taux, mu, L, R, a, b, t⟩)
    (fun p => (p.A, p.S, p.T1, p.T2, p.taux, p.mu, p.L, p.R, p.a, p.b, p.t)) (fun _ => rfl) (fun _ => rfl)).guard
    fun p => !(p.L.isEmpty || p.L.length ≠ p.R.length)

def maxAmounts (p : Bulletproof) : Nat :=
  if p.L.length < 6 ∨ p.L.length ≠ p.R.length ∨ 10 < p.L.length then 0 else 2 ^ (p.L.length - 6)

/-- The sum over the proofs from `n` on; 0 when one of them has none, or there are too many. -/
def sumMaxAmounts : Nat → List Bulletproof → Nat
  | n, [] => n
  | n, p :: ps =>
    if ¬maxAmounts p < 2 ^ 32 - 1 - n then 0
    else if maxAmounts p = 0 then 0
    else sumMaxAmounts (n + maxAmounts p) ps

def nBulletproofMaxAmounts (proofs : List Bulletproof) : Nat := sumMaxAmounts 0 proofs

def bulletproofs (type : UInt8) (outputs : Nat) : WireFormat (List Bulletproof) :=
  let nbp : WireFormat Nat :=
    (if type = rctTypeBulletproof2 then varint32 else uint32).via UInt32.toNat
      (fun n => if n < 2 ^ 32 then some (UInt32.ofNat n) else none)
      (by
        intro u _ _
        rw [if_pos u.toNat_lt, UInt32.ofNat_toNat])
      (by
        intro u n h
        split at h
        · cases h
          exact UInt32.toNat_ofNat_of_lt' (by assumption)
        · cases h)
  (counted nbp (fun _ _ => true) bulletproof (fun _ _ => rfl)).guard fun proofs =>
    proofs.length ≤ outputs && !(nBulletproofMaxAmounts proofs < outputs)

def mgSig (columns rows : Nat) : WireFormat MgSig :=
  ((many columns (many rows key)).pair key).iso (fun p => ⟨p.1, p.2⟩) (fun m => (m.ss, m.cc)) (fun _ => rfl)
    (fun _ => rfl)

def rctSigPrunable (type : UInt8) (inputs outputs columns : Nat) : WireFormat RctSigPrunable :=
  let simple : Bool := type = rctTypeSimple ∨ isRctBulletproof type
  ((if isRctBulletproof type then const [] else many outputs rangeSig).pair
    ((if isRctBulletproof type then bulletproofs type outputs else const []).pair
      ((many (if simple then inputs else 1) (mgSig columns ((if simple then 1 else inputs) + 1))).pair
        (if isRctBulletproof type then many inputs key else const [])))).iso
    (fun (rangeSigs, bulletproofs, mgs, pseudoOuts) => ⟨rangeSigs, bulletproofs, mgs, pseudoOuts⟩)
    (fun p => (p.rangeSigs, p.bulletproofs, p.mgs, p.pseudoOuts)) (fun _ => rfl) (fun _ => rfl)

structure RctSig where
  base : RctSigBase
  p : RctSigPrunable
  deriving DecidableEq

def RctSig.null : RctSig := ⟨.null, .empty⟩

structure Signatures where
  signatures : List (List Signature)
  rctSignatures : RctSig
  deriving DecidableEq

structure Transaction where
  pre : TransactionPrefix
  sig : Signatures
  deriving DecidableEq

def getSignatureSize : TxIn → Nat
  | .toKey _ keyOffsets _ => keyOffsets.length
  | _ => 0

/-- `mixin + 1`, where the size of the key offsets less one and one more are words. -/
def mixinColumns : List TxIn → Nat
  | .toKey _ keyOffsets _ :: _ => keyOffsets.length
  | _ => 1

def rctSig (vin : List TxIn) (outputs : Nat) : WireFormat RctSig :=
  ((rctSigBase vin.length outputs).sigma fun base =>
      if base.type = rctTypeNull then const .empty
      else rctSigPrunable base.type vin.length outputs (mixinColumns vin)).iso
    (fun p => ⟨p.1, p.2⟩) (fun r => (r.base, r.p)) (fun _ => rfl) (fun _ => rfl)

def signatures (pre : TransactionPrefix) : WireFormat Signatures :=
  if pre.version = 1 then
    ((each (pre.vin.map fun i => many (getSignatureSize i) signature)).pair (const RctSig.null)).iso
      (fun p => ⟨p.1, p.2⟩) (fun s => (s.signatures, s.rctSignatures)) (fun _ => rfl) (fun _ => rfl)
  else
    ((const []).pair (if pre.vin = [] then const RctSig.null else rctSig pre.vin pre.vout.length)).iso
      (fun p => ⟨p.1, p.2⟩) (fun s => (s.signatures, s.rctSignatures)) (fun _ => rfl) (fun _ => rfl)

def transaction : WireFormat Transaction :=
  (transactionPrefix.sigma signatures).iso (fun p => ⟨p.1, p.2⟩) (fun tx => (tx.pre, tx.sig)) (fun _ => rfl)
    (fun _ => rfl)

structure BlockHeader where
  majorVersion : UInt8
  minorVersion : UInt8
  timestamp : UInt64
  prevId : Hash
  nonce : UInt32
  deriving DecidableEq

structure Block where
  header : BlockHeader
  spinnerTx : Transaction
  txHashes : List Hash
  deriving DecidableEq

def cryptonoteMaxTxPerBlock : Nat := 0x10000000

def blockHeader : WireFormat BlockHeader :=
  (varint8.pair (varint8.pair (varint64.pair (key.pair uint32)))).iso
    (fun (major, minor, timestamp, prevId, nonce) => ⟨major, minor, timestamp, prevId, nonce⟩)
    (fun h => (h.majorVersion, h.minorVersion, h.timestamp, h.prevId, h.nonce)) (fun _ => rfl) (fun _ => rfl)

def blockFields : WireFormat Block :=
  (blockHeader.pair (transaction.pair keys)).iso (fun (header, tx, hashes) => ⟨header, tx, hashes⟩)
    (fun b => (b.header, b.spinnerTx, b.txHashes)) (fun _ => rfl) (fun _ => rfl)

def block : WireFormat Block := blockFields.guard fun b => !(b.txHashes.length > cryptonoteMaxTxPerBlock)

end Gyro.Wire
