import Gyro.Lib.FirstSeen
import Gyro.Wallet.Mms

/-!
# Delivery in the multisig message store

`check_for_messages` knows messages by the hash of their content, stores the first of
several, and takes a `signer_config` message as the signer's own.
-/

namespace Gyro.Wallet

namespace MmsStore

open FirstSeen List

variable {env : MmsEnv} {R r : MmsStore} {state : MultisigWalletState} {now : UInt64}

structure Sending (env : MmsEnv) (R : MmsStore) where
  store : MmsStore
  state : MultisigWalletState
  id : UInt32
  out : Outside
  message : MmsMessage
  receiver : AuthorizedSigner
  /-- The one who sends, as this signer knows them. -/
  sender : AuthorizedSigner
  found : store.messages.find? (·.id = id) = some message
  /-- Only for received messages is a count written later. -/
  unsigned : message.signatureCount = 0
  addressed : store.signers[message.signerIndex.toNat]? = some receiver
  receiver_address : receiver.moneroAddress = R.me.moneroAddress
  sender_mem : sender ∈ R.others
  sender_address : sender.moneroAddress = store.me.moneroAddress
  /-- Different signers have different addresses. -/
  sender_only : ∀ a ∈ R.signers, a.moneroAddress = sender.moneroAddress → a = sender
  own_key : store.me.moneroAddress.viewPublicKey = env.suite.secretKeyToPublicKey state.viewSecretKey

structure Receipt where
  senderIndex : UInt32
  type : MessageType
  content : Blob
  round : UInt32
  signatureCount : UInt32
  deriving DecidableEq

def receipt (m : MmsMessage) : Receipt := ⟨m.signerIndex, m.type, m.content, m.round, m.signatureCount⟩

namespace Sending

variable (s : Sending env R)

def transfers : List Transfer := ((s.store.sendMessage env s.state s.id s.out).map (·.2)).getD []

def hash : HashT := env.cnFastHash s.message.content

def committed : Nat := s.out.send.attempt.committed

def receiptFrom (index : UInt32) : Receipt :=
  ⟨index, s.message.type, s.message.content, s.message.round, s.message.signatureCount⟩

def storedIndex : UInt32 := if s.message.type = .signerConfig then 0 else s.sender.index

def dm : TransportMessage := s.store.transportMessage env s.state s.message s.receiver s.out

end Sending

def arrivals (env : MmsEnv) (R : MmsStore) (state : MultisigWalletState) (sendings : List (Sending env R)) :
    MmsStore :=
  (sendings.flatMap Sending.transfers).foldl (fun r t => r.onReceived env state t.sms) R

/-- One call stores messages with the given receipts, and no later call stores anything. -/
def StoresOnce (env : MmsEnv) (state : MultisigWalletState) (r : MmsStore) (receipts : List Receipt) : Prop :=
  ∀ now, ∃ stored new, r.checkForMessages env state now = some (stored, new) ∧
    stored.messages = r.messages ++ new ∧ new.map receipt = receipts ∧ (∀ m ∈ new, m.direction = .in) ∧
    ∀ later, stored.checkForMessages env state later = some (stored, [])

/-! ## From the sender to the collected messages -/

namespace Sending

variable (s : Sending env R)

theorem dm_source : s.dm.sourceMoneroAddress = s.sender.moneroAddress := s.sender_address.symm

theorem dm_destination : s.dm.destinationMoneroAddress = R.me.moneroAddress := s.receiver_address

theorem transfers_eq : s.transfers = (transport env s.dm s.out.send).2 := by
  simp [transfers, sendMessage, s.found, s.addressed, dm]

end Sending

def OwnKey (env : MmsEnv) (R : MmsStore) (state : MultisigWalletState) : Prop :=
  R.me.moneroAddress.viewPublicKey = env.suite.secretKeyToPublicKey state.viewSecretKey

theorem onReceived_mmsPayload {dm : TransportMessage} {t : SendTry} {sms : Blob}
    (hk : dm.destinationMoneroAddress.viewPublicKey = env.suite.secretKeyToPublicKey state.viewSecretKey)
    (h : mmsPayload env dm t = some sms) :
    r.onReceived env state sms = { r with collected := r.collected ++ [dm] } := by
  obtain ⟨c, hc, rfl⟩ := Option.map_eq_some_iff.mp h
  rw [hk] at hc
  have hi : env.cipher.unpack (env.cipher.pack c) = some (c, []) := by
    simpa using env.cipher.unpack_pack c []
  simp [onReceived, env.version.unpack_pack, hi, CipherSuite.decrypt_encrypt hc, env.decode_encode]

theorem exists_mmsPayload (dm : TransportMessage) (t : SendTry)
    (hk : dm.destinationMoneroAddress.viewPublicKey = env.suite.secretKeyToPublicKey state.viewSecretKey) :
    ∃ sms, mmsPayload env dm t = some sms := by
  have hs := @CipherSuite.isSome_encrypt env.suite state.viewSecretKey (env.encode dm) t.ephemeral
  obtain ⟨c, hc⟩ := Option.isSome_iff_exists.mp hs
  exact ⟨_, by rw [mmsPayload, hk, hc]; rfl⟩

theorem foldl_onReceived_transfers (hk : OwnKey env R state) (s : Sending env R) :
    s.transfers.foldl (fun r t => r.onReceived env state t.sms) r =
      { r with collected := r.collected ++ List.replicate s.committed s.dm } := by
  have hd : s.dm.destinationMoneroAddress.viewPublicKey = env.suite.secretKeyToPublicKey state.viewSecretKey := by
    rw [s.dm_destination]
    exact hk
  obtain ⟨sms, hs⟩ := exists_mmsPayload s.dm s.out.send hd
  have ht : s.transfers = List.replicate s.committed ⟨s.dm.destinationMoneroAddress, sms⟩ := by
    rw [s.transfers_eq]
    simp [transport, hs, Sending.committed]
  rw [ht]
  generalize s.committed = n
  induction n generalizing r with
  | zero => simp
  | succ n ih =>
    rw [replicate_succ, foldl_cons, onReceived_mmsPayload hd hs, ih, replicate_succ]
    simp

def copies (sendings : List (Sending env R)) : List (Sending env R) :=
  sendings.flatMap fun s => List.replicate s.committed s

theorem foldl_arrivals (hk : OwnKey env R state) (sendings : List (Sending env R)) :
    (sendings.flatMap Sending.transfers).foldl (fun r t => r.onReceived env state t.sms) r =
      { r with collected := r.collected ++ (copies sendings).map Sending.dm } := by
  induction sendings generalizing r with
  | nil => simp [copies]
  | cons s rest ih =>
    rw [flatMap_cons, foldl_append, foldl_onReceived_transfers hk, ih]
    simp [copies]

/-! ## Taking the collected messages -/

structure SameGroup (R r : MmsStore) : Prop where
  me : r.me = R.me
  others : r.others = R.others

theorem SameGroup.push (h : SameGroup R r) (m : MmsMessage) : SameGroup R (r.push m) := ⟨h.me, h.others⟩

def hashes (r : MmsStore) : List HashT := r.messages.map (·.hash)

theorem anyMessageWithHash_iff {hash : HashT} : r.anyMessageWithHash hash = true ↔ hash ∈ r.hashes := by
  simp [anyMessageWithHash, hashes]

theorem Sending.getSignerIndex (s : Sending env R) (h : SameGroup R r) :
    r.getSignerIndexByMoneroAddress s.dm.sourceMoneroAddress = some s.sender.index := by
  have hs : r.signers = R.signers := by rw [signers, signers, h.me, h.others]
  have hmm : s.sender ∈ R.signers := mem_cons_of_mem _ s.sender_mem
  have ho : (R.signers.find? (·.moneroAddress = s.sender.moneroAddress)).isSome :=
    List.find?_isSome.mpr ⟨s.sender, hmm, by simp⟩
  obtain ⟨a, ha⟩ := Option.isSome_iff_exists.mp ho
  have heq : a = s.sender := s.sender_only a (List.mem_of_find?_eq_some ha) (by simpa using List.find?_some ha)
  rw [getSignerIndexByMoneroAddress, hs, s.dm_source, ha, heq]
  rfl

theorem Sending.senderIndex_dm (s : Sending env R) (h : SameGroup R r) : r.senderIndex s.dm = some s.storedIndex := by
  have hi : (if s.dm.type = .signerConfig then some 0
      else r.getSignerIndexByMoneroAddress s.dm.sourceMoneroAddress) = some s.storedIndex := by
    rw [s.getSignerIndex h]
    exact (apply_ite some _ _ _).symm
  have hd : ¬(s.dm.type ≠ .autoConfigData ∧ s.dm.destinationMoneroAddress ≠ r.me.moneroAddress) := by
    rw [s.dm_destination, h.me]
    exact fun hn => hn.2 rfl
  exact (if_neg hd).trans hi

theorem checkMessage_dm (s : Sending env R) (h : SameGroup R r) : checkMessage env state now r s.dm =
      if s.hash ∈ r.hashes then some (r, [])
      else some (r.push (r.incoming state now s.storedIndex s.dm), [r.incoming state now s.storedIndex s.dm]) := by
  have hs : env.checkSignature s.dm.hash s.dm.sourceMoneroAddress.viewPublicKey s.dm.signature = true := by
    have hk := s.own_key
    simp only [Sending.dm, transportMessage]
    rw [hk]
    exact env.check_generate _ _ _
  have hh : env.cnFastHash s.dm.content = s.dm.hash := rfl
  have hn : (r.anyMessageWithHash s.dm.hash = true) = (s.hash ∈ r.hashes) := propext anyMessageWithHash_iff
  simp [checkMessage, hn, s.senderIndex_dm h, hh, hs]

theorem receipt_incoming (s : Sending env R) :
    receipt (r.incoming state now s.storedIndex s.dm) = s.receiptFrom s.storedIndex := by
  simp [receipt, incoming, newMessage, Sending.receiptFrom, Sending.dm, transportMessage, s.unsigned]

theorem hashes_push (m : MmsMessage) : (r.push m).hashes = r.hashes ++ [m.hash] := by simp [hashes, push]

theorem checkMessages_dms (h : SameGroup R r) (l : List (Sending env R)) :
    ∃ stored new, checkMessages env state now r (l.map Sending.dm) = some (stored, new) ∧
      SameGroup R stored ∧ stored.collected = r.collected ∧ stored.messages = r.messages ++ new ∧
      new.map receipt = (firsts Sending.hash r.hashes l).map (fun s => s.receiptFrom s.storedIndex) ∧
      (∀ m ∈ new, m.direction = .in) ∧ ∀ s ∈ l, s.hash ∈ stored.hashes := by
  induction l generalizing r with
  | nil => exact ⟨r, [], rfl, h, rfl, by simp, rfl, by simp, by simp⟩
  | cons s rest ih =>
    rw [map_cons, checkMessages, checkMessage_dm s h]
    unfold firsts
    by_cases hs : s.hash ∈ r.hashes
    · obtain ⟨stored, new, hr, hg, hc, hme, hre, hi, hk⟩ := ih h
      have hp : s.hash ∈ stored.hashes := by
        rw [hashes, hme, map_append]
        exact mem_append_left _ hs
      refine ⟨stored, new, ?_, hg, hc, hme, ?_, hi, forall_mem_cons.mpr ⟨hp, hk⟩⟩
      · simp [hs, hr]
      · rw [if_pos hs, hre]
    · set m := r.incoming state now s.storedIndex s.dm with hm
      obtain ⟨stored, new, hr, hg, hc, hme, hre, hi, hk⟩ := ih (h.push m)
      have ha : stored.messages = r.messages ++ m :: new := by
        rw [hme]
        simp [push]
      have hp : s.hash ∈ stored.hashes := by
        rw [hashes, ha, map_append]
        exact mem_append_right _ mem_cons_self
      refine ⟨stored, m :: new, ?_, hg, hc, ha, ?_, ?_, forall_mem_cons.mpr ⟨hp, hk⟩⟩
      · simp [hs, hr]
      · rw [if_neg hs, map_cons, hre, hashes_push, receipt_incoming]
        rfl
      · exact forall_mem_cons.mpr ⟨rfl, hi⟩

theorem checkMessages_known {l : List TransportMessage} (h : ∀ rm ∈ l, rm.hash ∈ r.hashes) :
    checkMessages env state now r l = some (r, []) := by
  induction l with
  | nil => rfl
  | cons rm rest ih =>
    obtain ⟨hr, hs⟩ := forall_mem_cons.mp h
    simp [checkMessages, checkMessage, anyMessageWithHash_iff.mpr hr, ih hs]

theorem receiveMessages_dms {l : List (Sending env R)} (h : SameGroup R r) (hc : r.collected = l.map Sending.dm)
    (hr : ∀ s ∈ l, s.sender.autoConfigRunning = true) : r.receiveMessages r.destinations = l.map Sending.dm := by
  rw [receiveMessages, hc, filter_eq_self]
  intro dm hd
  obtain ⟨s, hs, rfl⟩ := mem_map.mp hd
  have hmm : s.sender.moneroAddress ∈ r.destinations := by
    refine mem_cons_of_mem _ (mem_map_of_mem ?_)
    rw [h.others]
    exact mem_filter.mpr ⟨s.sender_mem, hr s hs⟩
  rw [s.dm_source]
  exact decide_eq_true hmm

/-- When all have arrived, one call stores the first of each unknown content with the sender's
index, or 0 for a signer configuration; later calls store nothing. -/
theorem mms_stores_once (hkey : OwnKey env R state) (hempty : R.collected = []) (sendings : List (Sending env R))
    (hrunning : ∀ s ∈ sendings, s.sender.autoConfigRunning = true) (hcommitted : ∀ s ∈ sendings, 0 < s.committed) :
    StoresOnce env state (R.arrivals env state sendings)
      ((firsts Sending.hash R.hashes sendings).map fun s => s.receiptFrom s.storedIndex) := by
  intro now
  have hc : ∀ s ∈ copies sendings, s ∈ sendings := by
    intro s hs
    obtain ⟨s', hs', hp⟩ := mem_flatMap.mp hs
    rwa [eq_of_mem_replicate hp]
  have hr' : ∀ s ∈ copies sendings, s.sender.autoConfigRunning = true := fun s hs => hrunning s (hc s hs)
  have ha : arrivals env R state sendings = { R with collected := (copies sendings).map Sending.dm } := by
    rw [arrivals, foldl_arrivals hkey, hempty, nil_append]
  set r : MmsStore := { R with collected := (copies sendings).map Sending.dm } with hr
  have hg : SameGroup R r := ⟨rfl, rfl⟩
  obtain ⟨stored, new, hu, ht, ho, hme, hre, hi, hk⟩ :=
    @checkMessages_dms env R r state now hg (copies sendings)
  rw [ha]
  refine ⟨stored, new, ?_, hme, ?_, hi, fun later => ?_⟩
  · rw [checkForMessages, receiveMessages_dms hg rfl hr', hu]
  · rw [hre]
    exact congrArg (List.map _) (firsts_flatMap_replicate hcommitted)
  · rw [checkForMessages, receiveMessages_dms ht ho hr']
    refine checkMessages_known fun dm hd => ?_
    obtain ⟨s, hs, rfl⟩ := mem_map.mp hd
    exact hk s hs

end MmsStore

namespace Sample

open MmsStore

def mmsState (viewSecretKey : SecretKey) : MultisigWalletState := ⟨viewSecretKey, 0, 0⟩

def mmsReceiver : MmsStore :=
  { me := ⟨⟨11, 10⟩, 0, true⟩, others := [⟨⟨21, 20⟩, 1, true⟩], messages := [], nextMessageId := 1, collected := [] }

def mmsSender : MmsStore :=
  { me := ⟨⟨21, 20⟩, 0, true⟩, others := [⟨⟨11, 10⟩, 1, true⟩], messages := [], nextMessageId := 1, collected := [] }

def mmsDraft (type : MessageType) (content : Blob) : MmsMessage :=
  mmsSender.newMessage (mmsState 20) 0 1 type .out content

def mmsSending (type : MessageType) (content : Blob) : Sending mmsEnv mmsReceiver where
  store := mmsSender.push (mmsDraft type content)
  state := mmsState 20
  id := 1
  out := ⟨0, [], goesOut⟩
  message := mmsDraft type content
  receiver := ⟨⟨11, 10⟩, 1, true⟩
  sender := ⟨⟨21, 20⟩, 1, true⟩
  found := rfl
  unsigned := rfl
  addressed := rfl
  receiver_address := rfl
  sender_mem := by decide
  sender_address := rfl
  sender_only := by decide
  own_key := rfl

end Sample

namespace MmsStore

open Sample

/-- A note sent twice and a signer configuration. -/
theorem mms_stores_once_notes : StoresOnce mmsEnv (mmsState 10) (mmsReceiver.arrivals mmsEnv (mmsState 10)
        [mmsSending .note [1], mmsSending .note [1], mmsSending .signerConfig [2]])
      [⟨1, .note, [1], 0, 0⟩, ⟨0, .signerConfig, [2], 0, 0⟩] :=
  mms_stores_once (show OwnKey mmsEnv mmsReceiver (mmsState 10) from rfl) rfl
    [mmsSending .note [1], mmsSending .note [1], mmsSending .signerConfig [2]] (by simp [mmsSending])
    (by simp [mmsSending, Sending.committed, goesOut])

theorem not_storesOnce_of_ne {receipts : List Receipt} (others : List Receipt)
    (h : (r.checkForMessages env state 0).map (fun p => p.2.map receipt) = some others) (hn : receipts ≠ others) :
    ¬StoresOnce env state r receipts := by
  intro hs
  obtain ⟨stored, new, hc, -, hr, -⟩ := hs 0
  rw [hc] at h
  exact hn (hr.symm.trans (Option.some.inj h))

/-- Of a note sent twice one is stored, and a signer configuration as if this signer had sent it. -/
theorem equal_note_dropped : ¬StoresOnce mmsEnv (mmsState 10)
        (mmsReceiver.arrivals mmsEnv (mmsState 10) [mmsSending .note [1], mmsSending .note [1]])
        ([mmsSending .note [1], mmsSending .note [1]].map fun s => s.receiptFrom s.sender.index) ∧
      ¬StoresOnce mmsEnv (mmsState 10) (mmsReceiver.arrivals mmsEnv (mmsState 10) [mmsSending .signerConfig [2]])
        ([mmsSending .signerConfig [2]].map fun s => s.receiptFrom s.sender.index) := by
  constructor
  · refine not_storesOnce_of_ne [⟨1, .note, [1], 0, 0⟩] ?_ (by decide)
    decide +kernel
  · refine not_storesOnce_of_ne [⟨0, .signerConfig, [2], 0, 0⟩] ?_ (by decide)
    decide +kernel

end MmsStore

end Gyro.Wallet
