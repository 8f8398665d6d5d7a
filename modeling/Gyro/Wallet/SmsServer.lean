import Gyro.Lib.Msgpack
import Gyro.Serialization
import Gyro.Wallet.Envelope

/-!
# The SMS server

`zyre::wallet::server` (`wallet_zyre.cpp`): messages are numbered for each contact,
encrypted to the wallet's own key and kept in a LevelDB store.
-/

namespace Gyro.Wallet

open KeyValue Msgpack

structure HashT where
  bytes : List UInt8
  length_eq : bytes.length = 32
  deriving DecidableEq

structure Data where
  d : Blob
  t : Blob
  ta : Blob
  f : Blob
  fa : Blob
  ts : UInt64
  deriving DecidableEq

structure DataSign where
  d : Blob
  s : Signature
  n : Blob
  a : Blob
  deriving DecidableEq

structure AddressParseInfo where
  address : AccountPublicAddress
  isSubaddress : Bool
  deriving DecidableEq

structure AddressBookRow where
  address : AccountPublicAddress
  isSubaddress : Bool
  label : Blob
  deriving DecidableEq

/-- What the server calls and this model does not take apart. -/
structure SmsEnv where
  suite : CipherSuite
  version : Codec DataVersion
  cipher : Codec DataCipher
  sign : Codec DataSign
  data : Codec Data
  cnFastHash : Blob → HashT
  /-- Of a hash, the public and the secret key, and the random scalar. -/
  generateSignature : HashT → PublicKey → SecretKey → SecretKey → Signature
  checkSignature : HashT → PublicKey → Signature → Bool
  /-- `get_account_address_from_str_or_url` on the wallets' network. -/
  getAccountAddressFromStrOrUrl : Blob → Option AddressParseInfo
  getAccountAddressAsStr : Bool → AccountPublicAddress → Blob

structure SmsWallet where
  address : AccountPublicAddress
  viewSecretKey : SecretKey
  /-- The label of the main address. -/
  label : Blob
  watchOnly : Bool
  /-- The key messages are stored under, and the salt made of it. -/
  sec : SecretKey
  salt : Blob

inductive Value where
  | number (n : UInt64)
  | cipher (c : DataCipher)
  deriving DecidableEq

structure Server where
  opened : Bool
  data : Store Value
  addressBook : List AddressBookRow

def dataLayer : UInt8 := 128

def contactPart : Nat := 1
def messagePart : Nat := 2

def messageReceived : Nat := 1
def messageToSend : Nat := 2

def messagesCounter : Nat := 1
def messagesTime : Nat := 2
def messagesSended : Nat := 3

def packHash (h : HashT) : Key := [0x91, 0xc4, 0x20] ++ h.bytes

def unpackHash : Key → Option (HashT × Key)
  | 0x91 :: 0xc4 :: 0x20 :: rest =>
    if h : (rest.take 32).length = 32 then some (⟨rest.take 32, h⟩, rest.drop 32) else none
  | _ => none

def contactKey (h : HashT) (field : Nat) : Key :=
  dataLayer :: packUInt contactPart ++ packHash h ++ packUInt field

/-- `data_[MESSAGE]` and `data_[MESSAGE][h]`, whose entries a cursor runs over. -/
def messagesKey : Key := dataLayer :: packUInt messagePart

def contactMessages (h : HashT) : Key := messagesKey ++ packHash h

def messageKey (h : HashT) (n : UInt64) (other : HashT) (flag : Nat) : Key :=
  contactMessages h ++ packUInt n.toNat ++ packHash other ++ packUInt flag

namespace Server

variable (st : Server)

def readNumber (k : Key) : Option UInt64 :=
  if st.opened then
    match st.data.get? k with
    | some (.number n) => some n
    | _ => none
  else none

def write (k : Key) (v : Value) : Server := if st.opened then { st with data := st.data.put k v } else st

def counter (h : HashT) : UInt64 := (st.readNumber (contactKey h messagesCounter)).getD 0

def storeMessage (h other : HashT) (flag : Nat) (c : DataCipher) (now : UInt64) : Server × UInt64 :=
  let n := st.counter h + 1
  ((((st.write (messageKey h n other flag) (.cipher c)).write (contactKey h messagesCounter) (.number n)).write
    (contactKey h messagesTime) (.number now)), n)

/-- The entries from the number on; none when there is no key with that number. -/
def find (h : HashT) (n : UInt64) : List (Key × Value) :=
  if st.opened then
    match st.data.scan (contactMessages h) (contactMessages h ++ packUInt n.toNat) with
    | e :: rest => if contactMessages h ++ packUInt n.toNat <+: e.1 then e :: rest else []
    | [] => []
  else []

end Server

section
variable (env : SmsEnv) (w : SmsWallet)

def ownAddress : Blob := env.getAccountAddressAsStr false w.address

def contactHash (a : Blob) : HashT := env.cnFastHash (a ++ w.salt)

def pub : PublicKey := env.suite.secretKeyToPublicKey w.sec

def readData : Value → Option Data
  | .cipher c => ((env.suite.decrypt c w.sec).bind env.data.unpack).map (·.1)
  | .number _ => none

structure SmsItem where
  sms : Blob
  sended : Bool
  ts : UInt64
  deriving DecidableEq

/-- The loop of `_sms_array`: it ends at the first message that cannot be read. -/
def smsItems : List (Key × Value) → List SmsItem
  | [] => []
  | (_, v) :: rest =>
    match readData env w v with
    | none => []
    | some info => { sms := info.d, sended := info.fa = ownAddress env w, ts := info.ts } :: smsItems rest

def smsArray (st : Server) (contact : Blob) (n cnt : UInt64) : List SmsItem :=
  smsItems env w ((st.find (contactHash env w contact) n).take cnt.toNat)

structure OwnSmsItem where
  sender : Blob
  sms : Blob
  ts : UInt64
  deriving DecidableEq

def ownSmsItems : List (Key × Value) → List OwnSmsItem
  | [] => []
  | (_, v) :: rest =>
    match readData env w v with
    | none => []
    | some info => { sender := info.f, sms := info.d, ts := info.ts } :: ownSmsItems rest

def ownSmsArray (st : Server) (n cnt : UInt64) : List OwnSmsItem :=
  ownSmsItems env w ((st.find (contactHash env w (ownAddress env w)) n).take cnt.toNat)

def readKey (h : HashT) (k : Key) : Option (Nat × HashT × Nat) :=
  match unpackUInt (k.drop (contactMessages h).length) with
  | none => none
  | some (n, rest) =>
    match unpackHash rest with
    | none => none
    | some (other, rest) => (unpackUInt rest).map fun (f, _) => (n, other, f)

def smsGet (st : Server) (contact : Blob) (n : UInt64) : Option SmsItem :=
  match st.find (contactHash env w contact) n with
  | [] => none
  | (k, v) :: _ =>
    match readKey (contactHash env w contact) k, readData env w v with
    | some (_, _, f), some info =>
      some { sms := info.d, sended := if f = messageReceived then false else true, ts := info.ts }
    | _, _ => none

def smsCount (st : Server) (contact : Blob) : UInt64 := st.counter (contactHash env w contact)

/-- The record of a message to be sent, with the label the address book has for its receiver. -/
def putData (st : Server) (dest sms : Blob) (now : UInt64) : Data :=
  let label := ((st.addressBook.find? fun row =>
    dest = env.getAccountAddressAsStr row.isSubaddress row.address).map (·.label)).getD []
  { d := sms, t := label, ta := dest, f := w.label, fa := ownAddress env w, ts := now }

/-- `_sms_put`, at a time and with the random choices of the encryption. -/
def smsPut (st : Server) (dest sms : Blob) (now : UInt64) (e : Ephemeral) : Server × UInt64 :=
  if w.watchOnly then (st, 0 - 1)
  else
    match env.suite.encrypt (pub env w) (env.data.pack (putData env w st dest sms now)) e with
    | none => (st, 0 - 1)
    | some c => st.storeMessage (contactHash env w dest) (contactHash env w (ownAddress env w)) messageToSend c now

/-- What `on_received` reads of its argument before it verifies anything. -/
def openMessage (payload : Blob) : Option DataSign :=
  match env.version.unpack payload with
  | none => none
  | some (ver, rest) =>
    if ver.major ≠ 0 ∨ ver.minor ≠ 1 then none
    else
      ((env.cipher.unpack rest).bind fun (c, _) => (env.suite.decrypt c w.viewSecretKey).bind env.sign.unpack).map (·.1)

def signedHash (s : DataSign) : HashT := env.cnFastHash (s.d ++ s.n ++ s.a)

def verifySender (s : DataSign) : Option AddressParseInfo :=
  match env.getAccountAddressFromStrOrUrl s.a with
  | none => none
  | some info => if env.checkSignature (signedHash env s) info.address.viewPublicKey s.s then some info else none

def gyroDomain : Blob := "@gyro.bit".toUTF8.toList

def addAddressBookRow (st : Server) (info : AddressParseInfo) (label : Blob) : Server :=
  let label := if label = [] then
    (env.getAccountAddressAsStr info.isSubaddress info.address).take 8 ++ gyroDomain else label
  { st with addressBook := st.addressBook ++ [⟨info.address, info.isSubaddress, label⟩] }

def receivedData (s : DataSign) (now : UInt64) : Data :=
  { d := s.d, t := w.label, ta := ownAddress env w, f := s.n, fa := s.a, ts := now }

/-- `on_received`. The store is opened first if need be; `opens` says whether that works. -/
def onReceived (st : Server) (payload : Blob) (now : UInt64) (e : Ephemeral) (opens : Bool) : Server :=
  if !st.opened && !opens then st
  else
    let st := { st with opened := true }
    match openMessage env w payload with
    | none => st
    | some s =>
      match verifySender env s with
      | none => st
      | some info =>
        match env.suite.encrypt (pub env w) (env.data.pack (receivedData env w s now)) e with
        | none => st
        | some c =>
          let hTo := contactHash env w (ownAddress env w)
          let hFrom := contactHash env w s.a
          let st' := (if !w.watchOnly then st.storeMessage hFrom hTo messageReceived c now
            else st.storeMessage hTo hFrom messageReceived c now).1
          if st.addressBook.any (·.address = info.address) then st' else addAddressBookRow env st' info s.n

structure Transfer where
  addr : AccountPublicAddress
  sms : Blob
  deriving DecidableEq

/-- The number of transactions committed, and whether a call threw, as it does when there is none to
make. -/
structure TxAttempt where
  committed : Nat
  threw : Bool
  some_committed : threw = false → 0 < committed
  deriving DecidableEq

/-- The randomness of signature and encryption, and the wallet's attempt. -/
structure SendTry where
  scalar : SecretKey
  ephemeral : Ephemeral
  attempt : TxAttempt
  deriving DecidableEq

def signMessage (d : Blob) (k : SecretKey) : DataSign :=
  let hash := env.cnFastHash (d ++ w.label ++ ownAddress env w)
  { d, s := env.generateSignature hash w.address.viewPublicKey w.viewSecretKey k, n := w.label, a := ownAddress env w }

/-- What goes into the extra: the version and the message encrypted to a view key. -/
def smsPayload (viewPublicKey : PublicKey) (d : Blob) (t : SendTry) : Option Blob :=
  (env.suite.encrypt viewPublicKey (env.sign.pack (signMessage env w d t.scalar)) t.ephemeral).map fun c =>
    env.version.pack ⟨0, 1⟩ ++ env.cipher.pack c

def recipient (addressBook : List AddressBookRow) (ta : Blob) : Option AddressBookRow :=
  addressBook.find? fun row => ta = env.getAccountAddressAsStr row.isSubaddress row.address

def sendTo (addressBook : List AddressBookRow) (msg : Data) (t : SendTry) : Bool × List Transfer :=
  match recipient env addressBook msg.ta with
  | none => (true, [])
  | some row =>
    match smsPayload env w row.address.viewPublicKey msg.d t with
    | none => (false, [])
    | some sms => (!t.attempt.threw, List.replicate t.attempt.committed ⟨row.address, sms⟩)

def readMessageKey (k : Key) : Option (HashT × Nat × HashT × Nat) :=
  (unpackHash (k.drop messagesKey.length)).bind fun (hTo, rest) =>
    (unpackUInt rest).bind fun (n, rest) =>
      (unpackHash rest).bind fun (hFrom, rest) => (unpackUInt rest).map fun (f, _) => (hTo, n, hFrom, f)

structure Attempted where
  contact : HashT
  number : UInt64
  msg : Data
  sent : Bool
  transfers : List Transfer
  deriving DecidableEq

/-- The loop of `send`. It ends at a key or a message that cannot be read. -/
def sendEntries (tries : HashT → UInt64 → SendTry) : Server → List (Key × Value) → Server × List Attempted
  | st, [] => (st, [])
  | st, (k, v) :: rest =>
    match readMessageKey k with
    | none => (st, [])
    | some (hTo, n, hFrom, f) =>
      if f &&& messageToSend = 0 then sendEntries tries st rest
      else if hFrom ≠ contactHash env w (ownAddress env w) then sendEntries tries st rest
      else if (st.readNumber (contactKey hTo messagesSended)).any (UInt64.ofNat n ≤ ·) then sendEntries tries st rest
      else
        match readData env w v with
        | none => (st, [])
        | some msg =>
          let (sent, transfers) := sendTo env w st.addressBook msg (tries hTo (UInt64.ofNat n))
          let st := if sent then st.write (contactKey hTo messagesSended) (.number (UInt64.ofNat n)) else st
          let (st, attempts) := sendEntries tries st rest
          (st, ⟨hTo, UInt64.ofNat n, msg, sent, transfers⟩ :: attempts)

def send (st : Server) (tries : HashT → UInt64 → SendTry) (opens : Bool) : Server × List Attempted :=
  if !st.opened && !opens then (st, [])
  else
    let st := { st with opened := true }
    sendEntries env w tries st (st.data.under messagesKey)

end

namespace Sample

def signCodec : Codec DataSign :=
  (Codec.bytes.pair ((Codec.word 512).pair (Codec.bytes.pair Codec.bytes))).via (fun s => (s.d, s.s, s.n, s.a))
    (fun p => ⟨p.1, p.2.1, p.2.2.1, p.2.2.2⟩) (fun _ => rfl)

def dataCodec : Codec Data :=
  (Codec.bytes.pair (Codec.bytes.pair (Codec.bytes.pair (Codec.bytes.pair (Codec.bytes.pair (Codec.word 64)))))).via
    (fun m => (m.d, m.t, m.ta, m.f, m.fa, m.ts.toBitVec))
    (fun p => ⟨p.1, p.2.1, p.2.2.1, p.2.2.2.1, p.2.2.2.2.1, ⟨p.2.2.2.2.2⟩⟩) (fun _ => rfl)

/-- The first 32 bytes, with zeros behind them where there are fewer. -/
def hash (b : Blob) : HashT := ⟨(b ++ List.replicate 32 0).take 32, by simp⟩

def addressCodec : Codec AddressParseInfo :=
  (Codec.number.pair ((Codec.word 256).pair (Codec.word 256))).via
    (fun i => (i.isSubaddress.toNat, i.address.spendPublicKey, i.address.viewPublicKey))
    (fun p => ⟨⟨p.2.1, p.2.2⟩, p.1 ≠ 0⟩) (by rintro ⟨_, _ | _⟩ <;> rfl)

def signature (hash : HashT) (pub : PublicKey) : Signature := ofBytes 256 hash.bytes ++ pub

def smsEnv : SmsEnv where
  suite := suite
  version := versionCodec
  cipher := cipherCodec
  sign := signCodec
  data := dataCodec
  cnFastHash := hash
  generateSignature hash pub _ _ := signature hash pub
  checkSignature hash pub s := s = signature hash pub
  getAccountAddressFromStrOrUrl a := (addressCodec.unpack a).map (·.1)
  getAccountAddressAsStr sub address := addressCodec.pack ⟨address, sub⟩

def smsWallet (sec : SecretKey) : SmsWallet :=
  { address := ⟨sec + 1, sec⟩, viewSecretKey := sec, label := [sec.toNat.toUInt8], watchOnly := false, sec := sec + 2
    salt := [] }

def ephemeral : Ephemeral := ⟨7, 0⟩

def goesOut : SendTry := ⟨3, ephemeral, ⟨1, false, by simp⟩⟩
def throws : SendTry := ⟨3, ephemeral, ⟨0, true, by simp⟩⟩

end Sample

end Gyro.Wallet
