import Gyro.Spin

/-!
# Blocks, transactions and spinner data

The fields of `cryptonote_basic.h`, `tx_extra.h` and `spinner_data.h` that verification
reads. A transaction carries its hash, weight and fee.
-/

namespace Gyro

structure AccountPublicAddress where
  spendPublicKey : PublicKey
  viewPublicKey : PublicKey
  deriving DecidableEq

structure ProofPair where
  key : PublicKey
  sig : Signature
  deriving DecidableEq

structure SpinnerTxProof where
  txid : Hash
  pairs : List ProofPair
  deriving DecidableEq

structure SpinnerInfo where
  /-- The spinner's address. -/
  adr : AccountPublicAddress
  proof : SpinnerTxProof
  /-- The session key, and its signature under the view key. -/
  pub : PublicKey
  sig : Signature
  /-- Height of the spinner's previous block, 0 if this is its first. -/
  prevuosHeight : UInt64
  deriving DecidableEq

structure SpinnerData where
  nfo : SpinnerInfo
  approximatelyCount : UInt64
  locked : UInt64
  mediumLocked : UInt64
  spin : UInt64
  mediumSpin : UInt64
  interval : UInt64
  mediumInterval : UInt64
  deriving DecidableEq

def SpinnerInfo.zero : SpinnerInfo where
  adr := { spendPublicKey := 0, viewPublicKey := 0 }
  proof := { txid := 0, pairs := [] }
  pub := 0
  sig := 0
  prevuosHeight := 0

def SpinnerData.zero : SpinnerData where
  nfo := SpinnerInfo.zero
  approximatelyCount := 0
  locked := 0
  mediumLocked := 0
  spin := 0
  mediumSpin := 0
  interval := 0
  mediumInterval := 0

/-- The fields of an extra; those no verification step looks for are `other`. -/
inductive TxExtraField where
  | pubKey (key : PublicKey)
  | additionalPubKeys (keys : List PublicKey)
  | spinTxProof (data : Blob)
  | spinData (data : Blob)
  | spinSig (sig : Signature)
  | chainId (id : Hash)
  | sms (layer : UInt8) (data : Blob)
  | other
  deriving DecidableEq

/-- An input: a coinbase, a script or the hash of one, or a ring of outputs. -/
inductive TxIn where
  | gen (height : UInt64)
  | toScript
  | toScripthash
  | toKey (amount : UInt64) (keyOffsets : List UInt64) (kImage : PublicKey)
  deriving DecidableEq

def TxIn.keyImage? : TxIn → Option PublicKey
  | .toKey _ _ k => some k
  | _ => none

/-- Where an output goes: a one-time key, or a script or the hash of one. -/
inductive TxOutTarget where
  | toScript
  | toScripthash
  | toKey (key : PublicKey)
  deriving DecidableEq

structure TxOut where
  amount : UInt64
  target : TxOutTarget
  deriving DecidableEq

inductive RctType where
  | null
  | full
  | simple
  | bulletproof
  | bulletproof2
  deriving DecidableEq

/-- A masked amount and its mask, as they are encoded for the receiver. -/
structure EcdhTuple where
  mask : PublicKey
  amount : PublicKey
  deriving DecidableEq

/-- The ring signature part: its type, and for each output the masked amount
and the commitment. -/
structure RctSig where
  type : RctType
  ecdhInfo : List EcdhTuple
  outPk : List PublicKey
  deriving DecidableEq

def RctSig.null : RctSig := { type := .null, ecdhInfo := [], outPk := [] }

structure Transaction where
  hash : Hash
  version : UInt64
  unlockTime : UInt64
  vin : List TxIn
  vout : List TxOut
  extra : List TxExtraField
  rctSignatures : RctSig
  weight : UInt64
  fee : UInt64
  pruned : Bool
  deriving DecidableEq

structure Block where
  hash : Hash
  majorVersion : UInt8
  minorVersion : UInt8
  timestamp : UInt64
  prevId : Hash
  spinnerTx : Transaction
  txHashes : List Hash
  deriving DecidableEq

/-- The version a block votes for: the minor version, where 0 stands for version 1. -/
def getBlockVote (b : Block) : UInt8 := if b.minorVersion = 0 then 1 else b.minorVersion

namespace Transaction

def keyImages (tx : Transaction) : List PublicKey := tx.vin.filterMap TxIn.keyImage?

def amounts (tx : Transaction) : List UInt64 := tx.vout.map (·.amount)

def rctTypeNull (tx : Transaction) : Bool := tx.rctSignatures.type = .null

def spinDataFromExtra (tx : Transaction) : Option Blob :=
  tx.extra.findSome? fun
    | .spinData data => some data
    | _ => none

def spinTxProofFromExtra (tx : Transaction) : Option Blob :=
  tx.extra.findSome? fun
    | .spinTxProof data => some data
    | _ => none

def spinSigFromExtra (tx : Transaction) : Option Signature :=
  tx.extra.findSome? fun
    | .spinSig sig => some sig
    | _ => none

def chainIdFromExtra (tx : Transaction) : Option Hash :=
  tx.extra.findSome? fun
    | .chainId id => some id
    | _ => none

def smsFromExtra (tx : Transaction) : Option (UInt8 × Blob) :=
  tx.extra.findSome? fun
    | .sms layer data => some (layer, data)
    | _ => none

def txPubKeyFromExtra (tx : Transaction) : PublicKey :=
  (tx.extra.findSome? fun
    | .pubKey key => some key
    | _ => none).getD nullPkey

def additionalTxPubKeysFromExtra (tx : Transaction) : List PublicKey :=
  (tx.extra.findSome? fun
    | .additionalPubKeys keys => some keys
    | _ => none).getD []

end Transaction

end Gyro
