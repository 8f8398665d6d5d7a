import Gyro.Wallet.SmsServer

/-!
# The multisig message store

`mms_store` keeps the messages of a multisig group, and `mms_transporter2` carries them,
encrypted to the view key of a signer, in the extra of transactions.
-/

namespace Gyro.Wallet

inductive MessageType where
  | keySet
  | additionalKeySet
  | multisigSyncData
  | partiallySignedTx
  | fullySignedTx
  | note
  | signerConfig
  | autoConfigData
  deriving DecidableEq

inductive MessageDirection where
  | in
  | out
  deriving DecidableEq

inductive MessageState where
  | readyToSend
  | sent
  | waiting
  | processed
  | cancelled
  deriving DecidableEq

structure MmsMessage where
  id : UInt32
  type : MessageType
  direction : MessageDirection
  content : Blob
  created : UInt64
  modified : UInt64
  sent : UInt64
  signerIndex : UInt32
  hash : HashT
  state : MessageState
  walletHeight : UInt32
  round : UInt32
  signatureCount : UInt32
  transportId : Blob
  deriving DecidableEq

structure AuthorizedSigner where
  moneroAddress : AccountPublicAddress
  index : UInt32
  autoConfigRunning : Bool
  deriving DecidableEq

structure TransportMessage where
  sourceMoneroAddress : AccountPublicAddress
  destinationMoneroAddress : AccountPublicAddress
  timestamp : UInt64
  type : MessageType
  subject : Blob
  content : Blob
  hash : HashT
  signature : Signature
  round : UInt32
  signatureCount : UInt32
  transportId : Blob
  deriving DecidableEq

structure MultisigWalletState where
  viewSecretKey : SecretKey
  numTransferDetails : Nat
  multisigRoundsPassed : UInt32
  deriving DecidableEq

/-- The layers around a message are inverse to each other, and a signature checks under its key. -/
structure MmsEnv where
  suite : CipherSuite
  version : Codec DataVersion
  cipher : Codec DataCipher
  /-- `store_t_to_json` and `base64_encode`. -/
  encode : TransportMessage → Blob
  /-- `base64_decode` and `load_t_from_json`. -/
  decode : Blob → Option TransportMessage
  decode_encode : ∀ dm, decode (encode dm) = some dm
  cnFastHash : Blob → HashT
  generateSignature : HashT → PublicKey → SecretKey → SecretKey → Signature
  checkSignature : HashT → PublicKey → Signature → Bool
  check_generate : ∀ hash sec k,
    checkSignature hash (suite.secretKeyToPublicKey sec)
      (generateSignature hash (suite.secretKeyToPublicKey sec) sec k) = true
  getHumanReadableTimestamp : UInt64 → Blob

/-- The store, with what its transporter has collected. The signer itself is the first. -/
structure MmsStore where
  me : AuthorizedSigner
  others : List AuthorizedSigner
  messages : List MmsMessage
  nextMessageId : UInt32
  /-- `messages_` of the transporter. -/
  collected : List TransportMessage

namespace MmsStore

variable (env : MmsEnv) (state : MultisigWalletState) (now : UInt64) (st : MmsStore)

def signers : List AuthorizedSigner := st.me :: st.others

def getSignerIndexByMoneroAddress (moneroAddress : AccountPublicAddress) : Option UInt32 :=
  (st.signers.find? (·.moneroAddress = moneroAddress)).map (·.index)

def anyMessageWithHash (hash : HashT) : Bool := st.messages.any (·.hash = hash)

def newMessage (signerIndex : UInt32) (type : MessageType) (direction : MessageDirection) (content : Blob) :
    MmsMessage :=
  { id := st.nextMessageId
    type, direction, content
    created := now
    modified := now
    sent := 0
    signerIndex
    hash := ⟨List.replicate 32 0, rfl⟩
    state := if direction = .out then .readyToSend else .waiting
    walletHeight := UInt32.ofNat state.numTransferDetails
    round := if type = .additionalKeySet then state.multisigRoundsPassed else 0
    signatureCount := 0
    transportId := [] }

def push (m : MmsMessage) : MmsStore :=
  { st with messages := st.messages ++ [m], nextMessageId := st.nextMessageId + 1 }

structure Outside where
  now : UInt64
  /-- The random transport id, in hex. -/
  transportId : Blob
  send : SendTry
  deriving DecidableEq

def transportMessage (m : MmsMessage) (receiver : AuthorizedSigner) (out : Outside) : TransportMessage :=
  let hash := env.cnFastHash m.content
  { sourceMoneroAddress := st.me.moneroAddress
    destinationMoneroAddress := receiver.moneroAddress
    timestamp := out.now
    type := m.type
    subject := "MMS V0 ".toUTF8.toList ++ env.getHumanReadableTimestamp out.now
    content := m.content
    hash
    signature := env.generateSignature hash st.me.moneroAddress.viewPublicKey state.viewSecretKey out.send.scalar
    round := m.round
    signatureCount := 0
    transportId := out.transportId }

def mmsPayload (dm : TransportMessage) (t : SendTry) : Option Blob :=
  (env.suite.encrypt dm.destinationMoneroAddress.viewPublicKey (env.encode dm) t.ephemeral).map fun c =>
    env.version.pack ⟨0, 1⟩ ++ env.cipher.pack c

/-- `mms_transporter2::send_message`: what it returns, and what was committed. -/
def transport (dm : TransportMessage) (t : SendTry) : Bool × List Transfer :=
  match mmsPayload env dm t with
  | none => (false, [])
  | some sms => (!t.attempt.threw, List.replicate t.attempt.committed ⟨dm.destinationMoneroAddress, sms⟩)

/-- `send_message`; `none` when no message has the id, or its signer is not there. -/
def sendMessage (id : UInt32) (out : Outside) : Option (MmsStore × List Transfer) := do
  let m ← st.messages.find? (·.id = id)
  let receiver ← st.signers[m.signerIndex.toNat]?
  let (_, transfers) := transport env (st.transportMessage env state m receiver out) out.send
  let mark (x : MmsMessage) := if x.id = id then { x with state := .sent, sent := out.now } else x
  return ({ st with messages := st.messages.map mark }, transfers)

def onReceived (data : Blob) : MmsStore :=
  match env.version.unpack data with
  | some (⟨0, 1⟩, rest) =>
    match env.cipher.unpack rest with
    | some (c, _) =>
      match (env.suite.decrypt c state.viewSecretKey).bind env.decode with
      | some dm => { st with collected := st.collected ++ [dm] }
      | none => st
    | none => st
  | _ => st

def receiveMessages (addresses : List AccountPublicAddress) : List TransportMessage :=
  st.collected.filter (·.sourceMoneroAddress ∈ addresses)

/-- The index of the sender; `none` when the message is not taken. -/
def senderIndex (rm : TransportMessage) : Option UInt32 :=
  let index := if rm.type = .signerConfig then some 0 else st.getSignerIndexByMoneroAddress rm.sourceMoneroAddress
  if rm.type ≠ .autoConfigData ∧ rm.destinationMoneroAddress ≠ st.me.moneroAddress then none else index

def incoming (index : UInt32) (rm : TransportMessage) : MmsMessage :=
  { st.newMessage state now index rm.type .in rm.content with
    hash := rm.hash
    transportId := rm.transportId
    sent := rm.timestamp
    round := rm.round
    signatureCount := rm.signatureCount }

/-- One round of the loop in `check_for_messages`; `none` where it throws. -/
def checkMessage (rm : TransportMessage) : Option (MmsStore × List MmsMessage) :=
  if st.anyMessageWithHash rm.hash then
    some (st, [])
  else
    match st.senderIndex rm with
    | none => some (st, [])
    | some index =>
      if env.cnFastHash rm.content ≠ rm.hash then none
      else if !env.checkSignature rm.hash rm.sourceMoneroAddress.viewPublicKey rm.signature then none
      else
        let m := st.incoming state now index rm
        some (st.push m, [m])

def checkMessages : MmsStore → List TransportMessage → Option (MmsStore × List MmsMessage)
  | st, [] => some (st, [])
  | st, rm :: rest => do
    let (st, new) ← checkMessage env state now st rm
    let (st, more) ← checkMessages st rest
    return (st, new ++ more)

/-- The store's own address, and those of the signers whose auto-config is running. -/
def destinations : List AccountPublicAddress :=
  st.me.moneroAddress :: (st.others.filter (·.autoConfigRunning)).map (·.moneroAddress)

/-- `check_for_messages`, with the new messages; `none` where it throws. -/
def checkForMessages : Option (MmsStore × List MmsMessage) :=
  checkMessages env state now st (st.receiveMessages st.destinations)

end MmsStore

/-! ## An environment that can be evaluated -/

namespace Sample

def typeNumber : MessageType → Nat
  | .keySet => 0
  | .additionalKeySet => 1
  | .multisigSyncData => 2
  | .partiallySignedTx => 3
  | .fullySignedTx => 4
  | .note => 5
  | .signerConfig => 6
  | .autoConfigData => 7

def typeOfNumber : Nat → MessageType
  | 0 => .keySet
  | 1 => .additionalKeySet
  | 2 => .multisigSyncData
  | 3 => .partiallySignedTx
  | 4 => .fullySignedTx
  | 5 => .note
  | 6 => .signerConfig
  | _ => .autoConfigData

def plainAddress : Codec AccountPublicAddress :=
  ((Codec.word 256).pair (Codec.word 256)).via (fun a => (a.spendPublicKey, a.viewPublicKey))
    (fun p => ⟨p.1, p.2⟩) (fun _ => rfl)

def messageType : Codec MessageType := Codec.number.via typeNumber typeOfNumber (by rintro (_ | _) <;> rfl)

def hashCodec : Codec HashT :=
  Codec.bytes.via HashT.bytes hash (by
    rintro ⟨bytes, hlength⟩
    simp [hash, hlength])

def transportCodec : Codec TransportMessage :=
  (plainAddress.pair (plainAddress.pair ((Codec.word 64).pair (messageType.pair (Codec.bytes.pair (Codec.bytes.pair
    (hashCodec.pair ((Codec.word 512).pair ((Codec.word 32).pair ((Codec.word 32).pair Codec.bytes)))))))))).via
    (fun m => (m.sourceMoneroAddress, m.destinationMoneroAddress, m.timestamp.toBitVec, m.type, m.subject, m.content,
      m.hash, m.signature, m.round.toBitVec, m.signatureCount.toBitVec, m.transportId))
    (fun (source, destination, timestamp, type, subject, content, hash, signature, round, count, id) =>
      ⟨source, destination, ⟨timestamp⟩, type, subject, content, hash, signature, ⟨round⟩, ⟨count⟩, id⟩)
    (fun _ => rfl)

def mmsEnv : MmsEnv where
  suite := suite
  version := versionCodec
  cipher := cipherCodec
  encode := transportCodec.pack
  decode blob := (transportCodec.unpack blob).map (·.1)
  decode_encode dm := by simpa using congrArg (Option.map (·.1)) (transportCodec.unpack_pack dm [])
  cnFastHash := hash
  generateSignature hash pub _ _ := signature hash pub
  checkSignature hash pub s := s = signature hash pub
  check_generate hash sec _ := by simp
  getHumanReadableTimestamp t := [t.toUInt8]

end Sample

end Gyro.Wallet
