import Gyro.Lib.FirstBySlot
import Gyro.Lib.Runs
import Gyro.Wallet.MmsSteps

/-!
# What the multisig message store has ready for processing

`get_processable_messages` goes down a cascade of steps. For one that takes a message of
each signer it keeps a vector of ids, the first cell for this signer.
-/

namespace Gyro.Wallet

open List

inductive MessageProcessing where
  | prepareMultisig
  | makeMultisig
  | exchangeMultisigKeys
  | createSyncData
  | processSyncData
  | signTx
  | sendTx
  | submitTx
  | processSignerConfig
  | processAutoConfigData
  deriving DecidableEq

structure ProcessingData where
  processing : MessageProcessing
  messageIds : List UInt32
  receivingSignerIndex : UInt32
  deriving DecidableEq

structure MultisigPhase extends MultisigWalletState where
  multisig : Bool
  multisigIsReady : Bool
  hasMultisigPartialKeyImages : Bool
  deriving DecidableEq

/-- What `get_processable_messages` returns, with `data_list` and `wait_reason`. -/
structure Processable where
  result : Bool
  dataList : List ProcessingData
  waitReason : String
  deriving DecidableEq

namespace Processable

def ready (data : ProcessingData) : Processable := ⟨true, [data], ""⟩

def wait (reason : String) : Processable := ⟨false, [], reason⟩

end Processable

structure SignerConfig where
  numRequiredSigners : UInt32
  labels : List Blob
  deriving DecidableEq

namespace MmsStore

open FirstBySlot

def getOtherSignersIdCount (ids : List UInt32) : Nat := (ids.drop 1).countP (· ≠ 0)

def messageIdsComplete (ids : List UInt32) : Bool := getOtherSignersIdCount ids = ids.length - 1

section
variable (st : MmsStore) (config : SignerConfig) (state : MultisigPhase) (forceSync : Bool)

def anyMessageOfType (type : MessageType) (direction : MessageDirection) : Bool :=
  st.messages.any fun m => m.type = type ∧ m.direction = direction

def idsBySigner (wanted : MmsMessage → Bool) : List UInt32 :=
  fill (·.signerIndex.toNat) (·.id) 0 st.signers.length (st.messages.filter wanted)

/-- Of the same round, on the same wallet height, or any when syncing is forced. -/
def syncData (m : MmsMessage) : Bool :=
  m.type = .multisigSyncData ∧ (forceSync ∨ m.walletHeight = UInt32.ofNat state.numTransferDetails)

/-- An offer to work on one message of every other signer, or the reason to wait. -/
def completeSet (processing : MessageProcessing) (wanted : MmsMessage → Bool) (reason : String) : Processable :=
  let ids := st.idsBySigner wanted
  if messageIdsComplete ids then .ready ⟨processing, ids.drop 1, 0⟩ else .wait reason

def processableSync : Processable :=
  if !st.messages.any fun m => syncData state forceSync m ∧ m.direction = .out then
    .ready ⟨.createSyncData, [], 0⟩
  else
    let ids := st.idsBySigner fun m => syncData state forceSync m ∧ m.direction = .in ∧ m.state = .waiting
    let idCount := UInt32.ofNat (getOtherSignersIdCount ids)
    let others := UInt32.ofNat st.signers.length - 1
    let reason := "Syncing not done because multisig sync data from other signers are missing or not complete."
    -- The offer takes in the first cell as well.
    let offer : Processable := ⟨true, [⟨.processSyncData, ids.filter (· ≠ 0), 0⟩], reason⟩
    if idCount = others then offer
    else if idCount ≥ config.numRequiredSigners - 1 then
      if forceSync then offer
      else .wait (reason ++ "\nUse \"mms next sync\" if you want to sync with just " ++
        toString (config.numRequiredSigners - 1) ++ " out of " ++ toString others ++
        " authorized signers and transact just with them")
    else .wait reason

def sendToOthers (id : UInt32) : List ProcessingData :=
  (List.range' 1 st.others.length).map fun j => ⟨.sendTx, [id], UInt32.ofNat j⟩

def processableTx : Processable :=
  let waiting := st.messages.filter (·.state = .waiting)
  match waiting.find? fun m => m.type = .fullySignedTx ∨ m.type = .partiallySignedTx with
  | some m =>
    if m.type = .fullySignedTx then ⟨true, ⟨.submitTx, [m.id], 0⟩ :: st.sendToOthers m.id, ""⟩
    else if m.signerIndex = 0 then ⟨true, st.sendToOthers m.id, ""⟩
    else .ready ⟨.signTx, [m.id], 0⟩
  | none =>
    if waiting = [] then .wait "There are no messages waiting to be processed."
    else
      .wait ("There are waiting messages, but nothing is ready to process under normal circumstances" ++
        (if waiting.any (·.type = .multisigSyncData) then
          "\nUse \"mms next sync\" if you want to force processing of the waiting sync data" else "") ++
        (if waiting.any (·.type = .note) then "\nUse \"mms note\" to display the waiting notes" else ""))

def getProcessableMessages : Processable :=
  let autoConfig (m : MmsMessage) : Bool := m.type = .autoConfigData ∧ m.state = .waiting
  if st.messages.any autoConfig then
    st.completeSet .processAutoConfigData autoConfig
      "Auto-config cannot proceed because auto config data from other signers is not complete"
  else
    match st.messages.find? fun m => m.type = .signerConfig ∧ m.state = .waiting with
    | some m => .ready ⟨.processSignerConfig, [m.id], 0⟩
    | none =>
      if config.labels.any (· = []) then .wait "The signer config is not complete."
      else if !state.multisig then
        if !st.anyMessageOfType .keySet .out then .ready ⟨.prepareMultisig, [], 0⟩
        else
          st.completeSet .makeMultisig (fun m => m.type = .keySet ∧ m.state = .waiting ∧ m.round = 0)
            "Wallet can't go multisig because key sets from other signers are missing or not complete."
      else if !state.multisigIsReady then
        st.completeSet .exchangeMultisigKeys
          (fun m => m.type = .additionalKeySet ∧ m.state = .waiting ∧ m.round = state.multisigRoundsPassed)
          ("Wallet can't start another key exchange round because key sets from other signers are missing " ++
            "or not complete.")
      else if state.hasMultisigPartialKeyImages || forceSync then st.processableSync config state forceSync
      else st.processableTx

end

/-! ## What is to hold of an offer -/

/-- As its taker reads them: waiting, incoming, of the wanted kind, and from different other
signers. -/
structure Inputs (st : MmsStore) (wanted : MmsMessage → Prop) (data : ProcessingData) (ms : List MmsMessage) :
    Prop where
  found : data.messageIds.map st.getMessageById = ms.map some
  waiting : ∀ m ∈ ms, m.state = .waiting
  incoming : ∀ m ∈ ms, m.direction = .in
  wanted : ∀ m ∈ ms, wanted m
  distinct : (ms.map (·.signerIndex)).Nodup
  others : ∀ m ∈ ms, m.signerIndex ≠ 0

def OneOfEach (st : MmsStore) (ms : List MmsMessage) : Prop :=
  ms.map (·.signerIndex.toNat) = List.range' 1 st.others.length

/-- The offer is for another step, or its inputs are complete and distinct. -/
def GoodOffer (st : MmsStore) (config : SignerConfig) (state : MultisigPhase) (forceSync : Bool)
    (data : ProcessingData) : Prop :=
  match data.processing with
  | .makeMultisig =>
    ∃ ms, st.Inputs (fun m => m.type = .keySet ∧ m.round = 0) data ms ∧ st.OneOfEach ms
  | .exchangeMultisigKeys =>
    ∃ ms, st.Inputs (fun m => m.type = .additionalKeySet ∧ m.round = state.multisigRoundsPassed) data ms ∧
      st.OneOfEach ms
  | .processSyncData =>
    ∃ ms, st.Inputs (fun m => syncData state forceSync m = true) data ms ∧
      config.numRequiredSigners.toNat - 1 ≤ ms.length
  | _ => True

/-- What `init` sets up: the signers are numbered, and the required ones are some of them. -/
structure Configured (st : MmsStore) (config : SignerConfig) : Prop where
  index_eq : ∀ i (h : i < st.signers.length), (st.signers.get ⟨i, h⟩).index = UInt32.ofNat i
  length_lt : st.signers.length < 2 ^ 32
  required_pos : 0 < config.numRequiredSigners.toNat
  required_le : config.numRequiredSigners.toNat ≤ st.signers.length

/-- A message waits only if it came in, from a signer, and sync data from another one. -/
structure Attributed (st : MmsStore) (m : MmsMessage) : Prop where
  waiting_in : m.state = .waiting → m.direction = .in
  known : m.direction = .in → m.signerIndex.toNat < st.signers.length
  foreign : m.direction = .in → m.type = .multisigSyncData → m.signerIndex ≠ 0

structure Orderly (st : MmsStore) : Prop where
  attributed : ∀ m ∈ st.messages, st.Attributed m
  ids : st.messages.Pairwise fun a b => a.id ≠ b.id

section Offers
variable {st : MmsStore} {config : SignerConfig} {state : MultisigPhase} {forceSync : Bool}
  {wanted : MmsMessage → Bool} {m : MmsMessage} {data : ProcessingData}

def kept (st : MmsStore) (wanted : MmsMessage → Bool) (first : Nat) : List MmsMessage :=
  chosenFrom (·.signerIndex.toNat) (·.id) 0 (st.messages.filter wanted) first (st.signers.length - first)

theorem getMessageById_of_mem (h : st.Orderly) (hm : m ∈ st.messages) : st.getMessageById m.id = some m := by
  have hi := h.ids
  unfold getMessageById
  generalize st.messages = l at hm hi
  induction l with
  | nil => cases hm
  | cons first l ih =>
    obtain ⟨hf, hr⟩ := pairwise_cons.mp hi
    rcases mem_cons.mp hm with rfl | hm
    · simp
    · rw [List.find?_cons_of_neg (by simpa using hf m hm)]
      exact ih hm hr

theorem mem_kept {first : Nat} (h : m ∈ st.kept wanted first) : m ∈ st.messages ∧ wanted m = true :=
  mem_filter.mp (mem_chosenFrom h)

theorem indices_kept (first : Nat) : ((st.kept wanted first).map (·.signerIndex.toNat)).Sublist
    (List.range' first (st.signers.length - first)) :=
  map_slot_sublist _

theorem ne_zero_of_mem_kept (h : m ∈ st.kept wanted 1) : m.signerIndex ≠ 0 := by
  have hme : m.signerIndex.toNat ∈ List.range' 1 (st.signers.length - 1) :=
    (indices_kept 1).subset (mem_map.mpr ⟨m, h, rfl⟩)
  have hp := (List.mem_range'_1.mp hme).1
  intro hzero
  rw [hzero] at hp
  exact absurd hp (by decide)

theorem nodup_kept (first : Nat) : ((st.kept wanted first).map (·.signerIndex)).Nodup := by
  have hs : ((st.kept wanted first).map (·.signerIndex.toNat)).Nodup :=
    (indices_kept first).nodup nodup_range'
  have ha : (st.kept wanted first).map (·.signerIndex.toNat) =
      ((st.kept wanted first).map (·.signerIndex)).map UInt32.toNat := by
    rw [map_map]
    rfl
  rw [ha] at hs
  exact hs.of_map _

theorem inputs_kept (h : st.Orderly) (hi : ∀ m, wanted m = true → m.state = .waiting)
    (hs : data.messageIds = (st.kept wanted 1).map (·.id)) :
    st.Inputs (fun m => wanted m = true) data (st.kept wanted 1) where
  found := by
    rw [hs, map_map]
    exact map_congr_left fun m hm => getMessageById_of_mem h (mem_kept hm).1
  waiting m hm := hi m (mem_kept hm).2
  incoming m hm := (h.attributed m (mem_kept hm).1).waiting_in (hi m (mem_kept hm).2)
  wanted m hm := (mem_kept hm).2
  distinct := nodup_kept 1
  others m hm := ne_zero_of_mem_kept hm

theorem countP_eq_length_kept : getOtherSignersIdCount (st.idsBySigner wanted) = (st.kept wanted 1).length := by
  rw [getOtherSignersIdCount, countP_eq_length_filter, idsBySigner, filter_drop_fill, length_map]
  rfl

theorem messageIdsComplete_spec (h : messageIdsComplete (st.idsBySigner wanted) = true) :
    (st.idsBySigner wanted).drop 1 = (st.kept wanted 1).map (·.id) ∧ st.OneOfEach (st.kept wanted 1) := by
  have hl : ((st.idsBySigner wanted).drop 1).filter (· ≠ 0) = (st.idsBySigner wanted).drop 1 := by
    refine filter_sublist.eq_of_length ?_
    simpa [messageIdsComplete, getOtherSignersIdCount, countP_eq_length_filter] using h
  refine ⟨?_, ?_⟩
  · rw [← hl]
    exact filter_drop_fill
  · exact map_slot_chosenFrom hl

theorem completeSet_spec {processing : MessageProcessing} {reason : String}
    (h : data ∈ (st.completeSet processing wanted reason).dataList) :
    data.processing = processing ∧ data.messageIds = (st.kept wanted 1).map (·.id) ∧
      st.OneOfEach (st.kept wanted 1) := by
  unfold completeSet at h
  dsimp only at h
  split at h
  · next hc =>
      obtain ⟨hi, ha⟩ := messageIdsComplete_spec hc
      cases mem_singleton.mp h
      exact ⟨rfl, hi, ha⟩
  · cases h

theorem kept_zero (h : ∀ m ∈ st.messages, wanted m = true → m.signerIndex ≠ 0) :
    st.kept wanted 0 = st.kept wanted 1 := by
  have hn : chosen (fun m : MmsMessage => m.signerIndex.toNat) (·.id) 0 (st.messages.filter wanted) 0 = none := by
    refine List.find?_eq_none.mpr fun m hm hzero => ?_
    obtain ⟨hme, ha⟩ := mem_filter.mp hm
    have hi : m.signerIndex.toNat = 0 := (decide_eq_true_eq.mp hzero).1
    exact h m hme ha (UInt32.toNat_inj.mp hi)
  have hr : List.range' 0 (st.signers.length - 0) = 0 :: List.range' 1 (st.signers.length - 1) := by
    simp [signers, List.range'_succ]
  rw [kept, chosenFrom, hr, filterMap_cons_none hn]
  rfl

theorem length_kept_le : (st.kept wanted 1).length ≤ st.signers.length - 1 := by
  have h := (@indices_kept st wanted 1).length_le
  simpa using h

theorem processableSync_spec (ho : st.Configured config)
    (h : data ∈ (st.processableSync config state forceSync).dataList) : data.processing = .createSyncData ∨
      ∃ wanted, (∀ m, wanted m = true ↔ syncData state forceSync m = true ∧ m.direction = .in ∧ m.state = .waiting) ∧
        data = ⟨.processSyncData, (st.idsBySigner wanted).filter (· ≠ 0), 0⟩ ∧
        config.numRequiredSigners.toNat - 1 ≤ (st.kept wanted 1).length := by
  set wanted : MmsMessage → Bool :=
    fun m => syncData state forceSync m ∧ m.direction = .in ∧ m.state = .waiting with ha
  have hs : ∀ m, wanted m = true ↔ syncData state forceSync m = true ∧ m.direction = .in ∧ m.state = .waiting := by
    intro m
    simp [ha]
  have hbound := @length_kept_le st wanted
  have hl := ho.length_lt
  have hp := ho.required_pos
  have hle := ho.required_le
  have hc : (UInt32.ofNat (getOtherSignersIdCount (st.idsBySigner wanted))).toNat = (st.kept wanted 1).length := by
    rw [countP_eq_length_kept]
    exact UInt32.toNat_ofNat_of_lt' (show _ < 2 ^ 32 by omega)
  have ht : (UInt32.ofNat st.signers.length - 1).toNat = st.signers.length - 1 := by
    rw [UInt32.toNat_sub_of_le]
    · simp [UInt32.toNat_ofNat_of_lt' hl]
    · rw [UInt32.le_iff_toNat_le, UInt32.toNat_ofNat_of_lt' hl]
      exact Nat.le_trans hp hle
  have hr : (config.numRequiredSigners - 1).toNat = config.numRequiredSigners.toNat - 1 := by
    rw [UInt32.toNat_sub_of_le]
    · rfl
    · exact UInt32.le_iff_toNat_le.mpr hp
  unfold processableSync at h
  split at h
  · cases mem_singleton.mp h
    exact Or.inl rfl
  · dsimp only at h
    rw [← ha] at h
    refine Or.inr ⟨wanted, hs, ?_⟩
    split at h
    · next hal =>
        cases mem_singleton.mp h
        have := congrArg UInt32.toNat hal
        exact ⟨rfl, by omega⟩
    · split at h
      · next hn =>
          split at h
          · cases mem_singleton.mp h
            have := UInt32.le_iff_toNat_le.mp hn
            exact ⟨rfl, by omega⟩
          · cases h
      · cases h

theorem goodOffer_of_other (h : data.processing ∉ [.makeMultisig, .exchangeMultisigKeys, .processSyncData]) :
    st.GoodOffer config state forceSync data := by
  unfold GoodOffer
  split <;> simp_all

theorem Inputs.mono {p q : MmsMessage → Prop} {ms : List MmsMessage} (h : st.Inputs p data ms) (hp : ∀ m, p m → q m) :
    st.Inputs q data ms :=
  { h with wanted := fun m hm => hp m (h.wanted m hm) }

theorem goodOffer_processableTx (h : data ∈ st.processableTx.dataList) : st.GoodOffer config state forceSync data := by
  have hs : ∀ id, data ∈ st.sendToOthers id → st.GoodOffer config state forceSync data := by
    intro id hme
    obtain ⟨j, -, rfl⟩ := mem_map.mp hme
    exact goodOffer_of_other (by simp)
  unfold processableTx at h
  dsimp only at h
  split at h
  · split at h
    · rcases mem_cons.mp h with rfl | hme
      · exact goodOffer_of_other (by simp)
      · exact hs _ hme
    · split at h
      · exact hs _ h
      · cases mem_singleton.mp h
        exact goodOffer_of_other (by simp)
  · split at h <;> cases h

/-- In an orderly store every offer has complete and distinct inputs. -/
theorem goodOffer_of_orderly (h : st.Orderly) (hc : st.Configured config)
    (hd : data ∈ (st.getProcessableMessages config state forceSync).dataList) :
    st.GoodOffer config state forceSync data := by
  unfold getProcessableMessages at hd
  dsimp only at hd
  split at hd
  · exact goodOffer_of_other (by simp [(completeSet_spec hd).1])
  split at hd
  · cases mem_singleton.mp hd
    exact goodOffer_of_other (by simp)
  split at hd
  · cases hd
  split at hd
  · split at hd
    · cases mem_singleton.mp hd
      exact goodOffer_of_other (by simp)
    · -- The key sets that make the wallet multisig.
      obtain ⟨hr, hi, ha⟩ := completeSet_spec hd
      have hp := inputs_kept h (fun m hm => (decide_eq_true_eq.mp hm).2.1) hi
      rw [GoodOffer, hr]
      refine ⟨_, hp.mono fun m hm => ?_, ha⟩
      obtain ⟨ht, -, ho⟩ := decide_eq_true_eq.mp hm
      exact ⟨ht, ho⟩
  split at hd
  · -- The key sets of a further round.
    obtain ⟨hr, hi, ha⟩ := completeSet_spec hd
    have hp := inputs_kept h (fun m hm => (decide_eq_true_eq.mp hm).2.1) hi
    rw [GoodOffer, hr]
    refine ⟨_, hp.mono fun m hm => ?_, ha⟩
    obtain ⟨ht, -, ho⟩ := decide_eq_true_eq.mp hm
    exact ⟨ht, ho⟩
  split at hd
  · rcases processableSync_spec hc hd with hcr | ⟨wanted, hs, rfl, hn⟩
    · exact goodOffer_of_other (by simp [hcr])
    · -- The sync data: the first cell is blank, since none of it is this signer's own.
      have hf : ∀ m ∈ st.messages, wanted m = true → m.signerIndex ≠ 0 := by
        intro m hm hwa
        obtain ⟨hy, hin, -⟩ := (hs m).mp hwa
        simp only [syncData, decide_eq_true_eq] at hy
        exact (h.attributed m hm).foreign hin hy.1
      have hi : (st.idsBySigner wanted).filter (· ≠ 0) = (st.kept wanted 1).map (·.id) := by
        have hce : ((st.idsBySigner wanted).drop 0).filter (· ≠ 0) = (st.kept wanted 0).map (·.id) :=
          filter_drop_fill
        rwa [kept_zero hf] at hce
      have hp : st.Inputs (fun m => wanted m = true)
          ⟨.processSyncData, (st.idsBySigner wanted).filter (· ≠ 0), 0⟩ (st.kept wanted 1) :=
        inputs_kept h (fun m hm => ((hs m).mp hm).2.2) hi
      exact ⟨_, hp.mono fun m hm => ((hs m).mp hm).1, hn⟩
  · exact goodOffer_processableTx hd

end Offers

structure Ledger where
  store : MmsStore
  added : Nat

def Ledger.step (env : MmsEnv) (config : SignerConfig) (s : Ledger) (op : Op) : Option Ledger :=
  let store := s.store.serve env config.numRequiredSigners op
  some { store, added := s.added + (store.messages.length - s.store.messages.length) }

/-- No valid sync data that is fetched names this signer as its source. -/
def NoOwnSyncData (env : MmsEnv) (st : MmsStore) : Op → Prop
  | .check _ _ => ∀ rm ∈ st.receiveMessages st.destinations, rm.type = .multisigSyncData →
      st.valid env rm = true → rm.sourceMoneroAddress ≠ st.me.moneroAddress
  | _ => True

structure Numbered (s : Ledger) : Prop where
  next : s.store.nextMessageId = UInt32.ofNat (s.added + 1)
  ids : s.added < 2 ^ 32 → (s.store.messages.map (·.id.toNat)).Pairwise (· < ·) ∧
    ∀ m ∈ s.store.messages, m.id.toNat ≤ s.added

section Steps
variable {env : MmsEnv} {config : SignerConfig} {st after : MmsStore} {s t : Ledger} {op : Op} {m : MmsMessage}
  {rm : TransportMessage} {new : List MmsMessage} {index : UInt32}

theorem SameGroup.signers_eq (h : SameGroup st after) : after.signers = st.signers := by
  rw [signers, signers, h.me, h.others]

theorem Configured.of_sameGroup (hc : st.Configured config) (h : SameGroup st after) : after.Configured config := by
  obtain ⟨hi, hl, hp, hle⟩ := hc
  refine ⟨?_, ?_, hp, ?_⟩ <;> rw [h.signers_eq] <;> assumption

theorem Attributed.of_sameGroup (hm : st.Attributed m) (h : SameGroup st after) : after.Attributed m :=
  ⟨hm.waiting_in, by rw [h.signers_eq]; exact hm.known, hm.foreign⟩

theorem Attributed.later {m' : MmsMessage} (hm : st.Attributed m) (h : Later m m') : st.Attributed m' where
  waiting_in hwi := h.direction.trans (hm.waiting_in (h.waiting hwi))
  known hi := by rw [h.signerIndex]; exact hm.known (h.direction.symm.trans hi)
  foreign hi ht := by
    rw [h.signerIndex]
    exact hm.foreign (h.direction.symm.trans hi) (h.type.symm.trans ht)

section
variable (hc : st.Configured config) (h : st.senderIndex rm = some index)
include hc h

theorem senderIndex_spec (ht : rm.type ≠ .signerConfig) : ∃ i, ∃ hi : i < st.signers.length, index = UInt32.ofNat i ∧
      (st.signers.get ⟨i, hi⟩).moneroAddress = rm.sourceMoneroAddress := by
  obtain ⟨a, ha, rfl, hd⟩ := exists_signer_of_senderIndex h ht
  obtain ⟨⟨i, hi⟩, rfl⟩ := mem_iff_get.mp ha
  exact ⟨i, hi, hc.index_eq i hi, hd⟩

theorem senderIndex_lt : index.toNat < st.signers.length := by
  by_cases ht : rm.type = .signerConfig
  · unfold senderIndex at h
    dsimp only at h
    split at h
    · cases h
    · cases h
      exact Nat.succ_pos _
  · obtain ⟨i, hi, rfl, -⟩ := senderIndex_spec hc h ht
    have hl := hc.length_lt
    rwa [UInt32.toNat_ofNat_of_lt' (show i < 2 ^ 32 by omega)]

end

theorem source_of_senderIndex_zero (hc : st.Configured config) (h : st.senderIndex rm = some 0)
    (ht : rm.type ≠ .signerConfig) : rm.sourceMoneroAddress = st.me.moneroAddress := by
  obtain ⟨i, hi, hzero, ha⟩ := senderIndex_spec hc h ht
  have hl := hc.length_lt
  have hi0 : i = 0 := by
    have hn := congrArg UInt32.toNat hzero
    rw [UInt32.toNat_ofNat_of_lt' (show i < 2 ^ 32 by omega)] at hn
    exact hn.symm
  subst hi0
  exact ha.symm

theorem attributed_of_origin (ho : st.Configured config) (how : NoOwnSyncData env st op)
    (h : Origin env st m op) : st.Attributed m := by
  cases h with
  | out hd ha => exact ⟨by simp [ha], by simp [hd], by simp [hd]⟩
  | tx hd hi ht =>
    refine ⟨fun _ => hd, fun _ => ?_, fun _ hs => ?_⟩
    · rw [hi]
      exact Nat.succ_pos _
    · rw [hs] at ht
      rcases ht with ht | ht <;> cases ht
  | check hf hvalid hc =>
    refine ⟨fun _ => hc.direction, fun _ => senderIndex_lt ho hc.sender, fun _ hs hzero => ?_⟩
    have ht := hc.type.symm.trans hs
    have hr := source_of_senderIndex_zero ho (hzero ▸ hc.sender) (by simp [ht])
    exact how _ hf ht hvalid hr

variable {l l' : List MmsMessage}

theorem exists_mem_of_forall₂ {r : MmsMessage → MmsMessage → Prop}
    (h : List.Forall₂ r l l') (hm : m ∈ l') : ∃ m₀ ∈ l, r m₀ m := by
  induction h with
  | nil => cases hm
  | cons hr _ ih =>
    rcases mem_cons.mp hm with rfl | hm
    · exact ⟨_, mem_cons_self, hr⟩
    · obtain ⟨m₀, hme, hr⟩ := ih hm
      exact ⟨m₀, mem_cons_of_mem _ hme, hr⟩

theorem map_id_of_forall₂ (h : List.Forall₂ Later l l') : l'.map (·.id.toNat) = l.map (·.id.toNat) := by
  induction h with
  | nil => rfl
  | cons hr _ ih => rw [map_cons, map_cons, ih, hr.id]

theorem attributed_serve (hc : st.Configured config) (ho : NoOwnSyncData env st op)
    (h : ∀ m ∈ st.messages, st.Attributed m) : ∀ m ∈ (st.serve env config.numRequiredSigners op).messages,
      (st.serve env config.numRequiredSigners op).Attributed m := by
  intro m hm
  rcases serve_cases env config.numRequiredSigners st op with ⟨new, hg, hor⟩ | hr
  · refine Attributed.of_sameGroup ?_ hg.group
    rw [hg.messages] at hm
    rcases mem_append.mp hm with hold | hn
    · exact h m hold
    · exact attributed_of_origin hc ho (hor m hn)
  · obtain ⟨kept, hs, hl⟩ := hr.messages
    obtain ⟨m₀, hme, hm₀⟩ := exists_mem_of_forall₂ hl hm
    exact ((h m₀ (hs.subset hme)).later hm₀).of_sameGroup hr.group

theorem Numbered.new_ids (h : Numbered s) (hg : Grown s.store after new) (hl : s.added + new.length < 2 ^ 32) :
    new.map (·.id.toNat) = List.range' (s.added + 1) new.length := by
  have ha : new.map (·.id.toNat) = (new.map (·.id)).map UInt32.toNat := by
    rw [map_map]
    rfl
  rw [ha, hg.ids, map_map, List.range'_eq_map_range]
  refine map_congr_left fun k hk => ?_
  have hk' := mem_range.mp hk
  rw [Function.comp_apply, h.next, ← UInt32.ofNat_add, UInt32.toNat_ofNat_of_lt' (show _ < 2 ^ 32 by omega)]

theorem Numbered.grown (h : Numbered s) (hg : Grown s.store after new) : Numbered ⟨after, s.added + new.length⟩ := by
  refine ⟨?_, fun hl => ?_⟩
  · rw [hg.next, h.next, ← UInt32.ofNat_add, Nat.add_right_comm]
  · dsimp only at hl ⊢
    obtain ⟨hp, hle⟩ := h.ids (by omega)
    have hn := h.new_ids hg hl
    rw [hg.messages, map_append, hn]
    refine ⟨pairwise_append.mpr ⟨hp, pairwise_lt_range', ?_⟩, fun m hm => ?_⟩
    · intro a ha b hb
      obtain ⟨m, hm, rfl⟩ := mem_map.mp ha
      have hb' := (List.mem_range'_1.mp hb).1
      have := hle m hm
      omega
    · rcases mem_append.mp hm with hold | hme
      · have := hle m hold
        omega
      · have hi : m.id.toNat ∈ List.range' (s.added + 1) new.length := by
          rw [← hn]
          exact mem_map.mpr ⟨m, hme, rfl⟩
        have := (List.mem_range'_1.mp hi).2
        omega

theorem Numbered.reduced (h : Numbered s) (hr : Reduced s.store after) : Numbered ⟨after, s.added⟩ := by
  obtain ⟨kept, hs, hl⟩ := hr.messages
  refine ⟨hr.next.trans h.next, fun ht => ?_⟩
  obtain ⟨hp, hle⟩ := h.ids ht
  refine ⟨?_, fun m hm => ?_⟩
  · rw [map_id_of_forall₂ hl]
    exact hp.sublist (hs.map _)
  · obtain ⟨m₀, hme, hm₀⟩ := exists_mem_of_forall₂ hl hm
    rw [hm₀.id]
    exact hle m₀ (hs.subset hme)

theorem Numbered.step (h : Numbered s) (ht : s.step env config op = some t) : Numbered t := by
  cases ht
  rcases serve_cases env config.numRequiredSigners s.store op with ⟨new, hg, -⟩ | hr
  · have hl : (s.store.serve env config.numRequiredSigners op).messages.length - s.store.messages.length =
        new.length := by
      rw [hg.messages, length_append]
      omega
    rw [hl]
    exact h.grown hg
  · have hl : (s.store.serve env config.numRequiredSigners op).messages.length - s.store.messages.length = 0 := by
      obtain ⟨kept, hs, ha⟩ := hr.messages
      have := hs.length_le
      have := ha.length_eq
      omega
    rw [hl]
    exact h.reduced hr

structure Sound (config : SignerConfig) (s : Ledger) : Prop where
  configured : s.store.Configured config
  attributed : ∀ m ∈ s.store.messages, s.store.Attributed m
  numbered : Numbered s

theorem Sound.step (h : Sound config s) (ho : NoOwnSyncData env s.store op) (ht : s.step env config op = some t) :
    Sound config t := by
  have hn := h.numbered.step ht
  cases ht
  refine ⟨?_, attributed_serve h.configured ho h.attributed, hn⟩
  rcases serve_cases env config.numRequiredSigners s.store op with ⟨new, hg, -⟩ | hr
  · exact h.configured.of_sameGroup hg.group
  · exact h.configured.of_sameGroup hr.group

theorem Sound.orderly (h : Sound config s) (hl : s.added < 2 ^ 32) : s.store.Orderly := by
  refine ⟨h.attributed, ?_⟩
  have hi := pairwise_map.mp (h.numbered.ids hl).1
  refine hi.imp fun ha heq => ?_
  rw [heq] at ha
  exact Nat.lt_irrefl _ ha

structure Initial (config : SignerConfig) (st : MmsStore) : Prop where
  configured : st.Configured config
  messages : st.messages = []
  next : st.nextMessageId = 1

theorem Initial.sound (h : Initial config st) : Sound config ⟨st, 0⟩ := by
  refine ⟨h.configured, ?_, ?_, fun _ => ?_⟩
  · simp [h.messages]
  · simp [h.next]
  · simp [h.messages]

end Steps

open Runs in
/-- As long as no valid sync data from this signer is fetched and the ids last, every offer has
complete and distinct inputs. -/
theorem offers_complete (env : MmsEnv) (config : SignerConfig) {st : MmsStore} (hinit : Initial config st)
    {ops : List Op} (hown : EveryStep (Ledger.step env config) (fun s op => NoOwnSyncData env s.store op) ⟨st, 0⟩ ops)
    {t : Ledger} (hrun : run (Ledger.step env config) ⟨st, 0⟩ ops = some t) (hadded : t.added < 2 ^ 32)
    (state : MultisigPhase) (forceSync : Bool) :
    ∀ data ∈ (t.store.getProcessableMessages config state forceSync).dataList,
      t.store.GoodOffer config state forceSync data := by
  have ho : Sound config t :=
    run_invariant (fun _ _ _ hs hown ht => hs.step hown ht) hinit.sound hown hrun
  intro data hd
  exact goodOffer_of_orderly (ho.orderly hadded) ho.configured hd

end MmsStore

namespace Sample

open MmsStore

def twoSigners : SignerConfig := ⟨2, [[1], [2]]⟩

def collecting (rms : List TransportMessage) : MmsStore := { mmsReceiver with collected := rms }

theorem configured_mmsReceiver : mmsReceiver.Configured twoSigners := ⟨by decide, by decide, by decide, by decide⟩

theorem initial_collecting (rms : List TransportMessage) : Initial twoSigners (collecting rms) :=
  ⟨configured_mmsReceiver.of_sameGroup ⟨rfl, rfl⟩, rfl, rfl⟩

def phase (multisig : Bool) : MultisigPhase := ⟨mmsState 10, multisig, multisig, multisig⟩

def takesIn (type : MessageType) : List Op := [.created (mmsState 10) 0 type [7], .check (mmsState 10) 1]

def reflected (type : MessageType) : TransportMessage :=
  { mmsReceiver.transportMessage mmsEnv (mmsState 10) (mmsReceiver.newMessage (mmsState 10) 0 1 type .out [7])
      ⟨⟨21, 20⟩, 1, true⟩ ⟨0, [], goesOut⟩ with
    destinationMoneroAddress := ⟨11, 10⟩ }

end Sample

namespace MmsStore

open Sample Runs

/-- The key set of the other signer makes the wallet multisig; this signer's own is no input. -/
theorem offers_complete_keySet :
    ∃ t, run (Ledger.step mmsEnv twoSigners) ⟨collecting [reflected .keySet, (mmsSending .keySet [5]).dm], 0⟩
        (takesIn .keySet) = some t ∧
      (t.store.getProcessableMessages twoSigners (phase false) false).dataList = [⟨.makeMultisig, [3], 0⟩] ∧
      t.store.GoodOffer twoSigners (phase false) false ⟨.makeMultisig, [3], 0⟩ := by
  have ho : EveryStep (Ledger.step mmsEnv twoSigners) (fun s op => NoOwnSyncData mmsEnv s.store op)
      ⟨collecting [reflected .keySet, (mmsSending .keySet [5]).dm], 0⟩ (takesIn .keySet) := by
    refine everyStep_cons trivial fun t ht => ?_
    cases ht
    refine everyStep_cons (fun rm hrm hy => ?_) fun _ _ => everyStep_nil
    have hme : rm ∈ [reflected .keySet, (mmsSending .keySet [5]).dm] := (mem_filter.mp hrm).1
    rcases mem_pair.mp hme with rfl | rfl <;> cases hy
  obtain ⟨t, hr⟩ : ∃ t, run (Ledger.step mmsEnv twoSigners)
      ⟨collecting [reflected .keySet, (mmsSending .keySet [5]).dm], 0⟩ (takesIn .keySet) = some t := ⟨_, rfl⟩
  have hf : (run (Ledger.step mmsEnv twoSigners)
      ⟨collecting [reflected .keySet, (mmsSending .keySet [5]).dm], 0⟩ (takesIn .keySet)).map
        (fun t => (t.added, (t.store.getProcessableMessages twoSigners (phase false) false).dataList)) =
      some (3, [⟨.makeMultisig, [3], 0⟩]) := by decide +kernel
  rw [hr] at hf
  obtain ⟨ha, hl⟩ := Prod.mk.inj (Option.some.inj hf)
  refine ⟨t, hr, hl, ?_⟩
  refine offers_complete mmsEnv twoSigners (initial_collecting _) ho hr (by omega) (phase false) false _ ?_
  rw [hl]
  exact mem_singleton.mpr rfl

/-- This signer's own sync data is an input of the step that processes sync data. -/
theorem own_sync_data_offered : ∃ t, run (Ledger.step mmsEnv twoSigners)
        ⟨collecting [reflected .multisigSyncData, (mmsSending .multisigSyncData [5]).dm], 0⟩
        (takesIn .multisigSyncData) = some t ∧ t.added = 3 ∧
      (t.store.getProcessableMessages twoSigners (phase true) false).dataList = [⟨.processSyncData, [2, 3], 0⟩] ∧
      ¬t.store.GoodOffer twoSigners (phase true) false ⟨.processSyncData, [2, 3], 0⟩ := by
  obtain ⟨t, hr⟩ : ∃ t, run (Ledger.step mmsEnv twoSigners)
      ⟨collecting [reflected .multisigSyncData, (mmsSending .multisigSyncData [5]).dm], 0⟩
      (takesIn .multisigSyncData) = some t := ⟨_, rfl⟩
  have hf : (run (Ledger.step mmsEnv twoSigners)
      ⟨collecting [reflected .multisigSyncData, (mmsSending .multisigSyncData [5]).dm], 0⟩
      (takesIn .multisigSyncData)).map (fun t => (t.added,
        (t.store.getProcessableMessages twoSigners (phase true) false).dataList,
        (t.store.getMessageById 2).map (·.signerIndex))) =
      some (3, [⟨.processSyncData, [2, 3], 0⟩], some 0) := by decide +kernel
  rw [hr] at hf
  obtain ⟨ha, hs⟩ := Prod.mk.inj (Option.some.inj hf)
  obtain ⟨hl, ho⟩ := Prod.mk.inj hs
  refine ⟨t, hr, ha, hl, ?_⟩
  rintro ⟨ms, hi, -⟩
  obtain ⟨m, hm, hzero⟩ := Option.map_eq_some_iff.mp ho
  have hme : some m ∈ ms.map some := by
    rw [← hi.found, ← hm]
    exact mem_cons_self
  obtain ⟨m', hm', heq⟩ := mem_map.mp hme
  cases heq
  exact hi.others m hm' hzero

end MmsStore

end Gyro.Wallet
