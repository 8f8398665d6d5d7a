import Gyro.Wallet.MmsCheck

/-!
# What happens to the multisig message store

The wallet adds, sends, marks and deletes messages, the transporter collects and
`check_for_messages` takes them. A call that throws for an unknown id changes nothing.
-/

namespace Gyro.Wallet

open List

namespace MmsStore

section Calls
variable (st : MmsStore)

def addMessage (state : MultisigWalletState) (now : UInt64) (signerIndex : UInt32) (type : MessageType)
    (direction : MessageDirection) (content : Blob) : MmsStore :=
  st.push (st.newMessage state now signerIndex type direction content)

def getMessageById (id : UInt32) : Option MmsMessage := st.messages.find? (·.id = id)

def modifyById (id : UInt32) (f : MmsMessage → MmsMessage) : MmsStore :=
  { st with messages := st.messages.modify (st.messages.findIdx (·.id = id)) f }

/-- `process_wallet_created_data`, for a wallet with so many required signers. -/
def processWalletCreatedData (numRequiredSigners : UInt32) (state : MultisigWalletState) (now : UInt64)
    (type : MessageType) (content : Blob) : MmsStore :=
  match type with
  | .keySet | .additionalKeySet | .multisigSyncData =>
    (List.range' 1 st.others.length).foldl
      (fun st i => st.addMessage state now (UInt32.ofNat i) type .out content) st
  | .partiallySignedTx =>
    -- One signature may be enough already.
    st.addMessage state now 0 (if numRequiredSigners = 1 then .fullySignedTx else .partiallySignedTx) .in content
  | .fullySignedTx => st.addMessage state now 0 .fullySignedTx .in content
  | .note | .signerConfig | .autoConfigData => st

/-- `delete_transport_message` for a message with the transport id. -/
def deleteTransportMessage (transportId : Blob) : MmsStore :=
  if transportId = [] then st
  else { st with collected := st.collected.eraseP (·.transportId = transportId) }

def marked (state : MessageState) (now : UInt64) (m : MmsMessage) : MmsMessage :=
  { m with state, modified := now }

def setMessageProcessedOrSent (id : UInt32) (now : UInt64) : MmsStore :=
  match st.getMessageById id with
  | none => st
  | some m =>
    match m.state with
    | .waiting => (st.deleteTransportMessage m.transportId).modifyById id (marked .processed now)
    | .readyToSend => st.modifyById id (marked .sent now)
    | .sent | .processed | .cancelled => st.modifyById id fun m => marked m.state now m

def deleteMessage (id : UInt32) : MmsStore :=
  match st.getMessageById id with
  | none => st
  | some m =>
    { st.deleteTransportMessage m.transportId with messages := st.messages.eraseP (·.id = id) }

def deleteAllMessages : MmsStore :=
  { st.messages.foldl (fun st m => st.deleteTransportMessage m.transportId) st with messages := [] }

end Calls

inductive Op where
  | created (state : MultisigWalletState) (now : UInt64) (type : MessageType) (content : Blob)
  /-- A message for another signer, such as a note or a signer configuration. -/
  | add (state : MultisigWalletState) (now : UInt64) (signerIndex : UInt32) (type : MessageType) (content : Blob)
  | received (state : MultisigWalletState) (data : Blob)
  | check (state : MultisigWalletState) (now : UInt64)
  | send (state : MultisigWalletState) (id : UInt32) (out : Outside)
  | processed (id : UInt32) (now : UInt64)
  | delete (id : UInt32)
  | deleteAll

def serve (env : MmsEnv) (numRequiredSigners : UInt32) (st : MmsStore) : Op → MmsStore
  | .created state now type content => st.processWalletCreatedData numRequiredSigners state now type content
  | .add state now signerIndex type content => st.addMessage state now signerIndex type .out content
  | .received state data => st.onReceived env state data
  | .check state now => (checkLoop env state now st (st.receiveMessages st.destinations)).store
  | .send state id out => ((st.sendMessage env state id out).map (·.1)).getD st
  | .processed id now => st.setMessageProcessedOrSent id now
  | .delete id => st.deleteMessage id
  | .deleteAll => st.deleteAllMessages

/-! ## What a call does to the messages -/

structure Later (m later : MmsMessage) : Prop where
  id : later.id = m.id
  type : later.type = m.type
  direction : later.direction = m.direction
  content : later.content = m.content
  signerIndex : later.signerIndex = m.signerIndex
  hash : later.hash = m.hash
  walletHeight : later.walletHeight = m.walletHeight
  round : later.round = m.round
  waiting : later.state = .waiting → m.state = .waiting

structure Grown (st after : MmsStore) (new : List MmsMessage) : Prop where
  group : SameGroup st after
  messages : after.messages = st.messages ++ new
  ids : new.map (·.id) = (List.range new.length).map fun k => st.nextMessageId + UInt32.ofNat k
  next : after.nextMessageId = st.nextMessageId + UInt32.ofNat new.length

structure Reduced (st after : MmsStore) : Prop where
  group : SameGroup st after
  next : after.nextMessageId = st.nextMessageId
  messages : ∃ kept, kept.Sublist st.messages ∧ List.Forall₂ Later kept after.messages

inductive Origin (env : MmsEnv) (st : MmsStore) (m : MmsMessage) : Op → Prop where
  | out {op : Op} (direction : m.direction = .out) (state : m.state = .readyToSend) : Origin env st m op
  /-- A transaction the wallet keeps in a message to itself. -/
  | tx {op : Op} (direction : m.direction = .in) (signerIndex : m.signerIndex = 0)
      (type : m.type = .partiallySignedTx ∨ m.type = .fullySignedTx) : Origin env st m op
  | check {state : MultisigWalletState} {now : UInt64} {rm : TransportMessage}
      (fetched : rm ∈ st.receiveMessages st.destinations) (valid : st.valid env rm = true)
      (copy : CopyOf (st.senderIndex rm) rm m) : Origin env st m (.check state now)

section
variable {env : MmsEnv} {st st' after : MmsStore} {new more : List MmsMessage} {m : MmsMessage}
  {state : MultisigWalletState} {now : UInt64} {numRequiredSigners : UInt32} {rm : TransportMessage} {index : UInt32}

theorem SameGroup.refl (st : MmsStore) : SameGroup st st := ⟨rfl, rfl⟩

theorem SameGroup.trans (h : SameGroup st st') (h' : SameGroup st' after) : SameGroup st after :=
  ⟨h'.me.trans h.me, h'.others.trans h.others⟩

theorem later_marked {s : MessageState} (h : s = .waiting → m.state = .waiting) : Later m (marked s now m) :=
  ⟨rfl, rfl, rfl, rfl, rfl, rfl, rfl, rfl, h⟩

theorem Later.refl (m : MmsMessage) : Later m m := ⟨rfl, rfl, rfl, rfl, rfl, rfl, rfl, rfl, fun h => h⟩

theorem Grown.refl (st : MmsStore) : Grown st st [] := ⟨.refl st, by simp, rfl, by simp⟩

theorem grown_push (hi : m.id = st.nextMessageId) : Grown st (st.push m) [m] :=
  ⟨⟨rfl, rfl⟩, rfl, by simp [hi], by simp [push]⟩

theorem Grown.trans (h : Grown st st' new) (h' : Grown st' after more) : Grown st after (new ++ more) where
  group := h.group.trans h'.group
  messages := by rw [h'.messages, h.messages, append_assoc]
  ids := by
    rw [map_append, h.ids, h'.ids, h.next, length_append, range_add, map_append]
    simp [Function.comp_def, UInt32.add_assoc]
  next := by rw [h'.next, h.next, length_append, UInt32.ofNat_add, UInt32.add_assoc]

theorem Reduced.of_messages_eq (hg : SameGroup st after) (hn : after.nextMessageId = st.nextMessageId)
    (hme : after.messages = st.messages) : Reduced st after := by
  refine ⟨hg, hn, st.messages, List.Sublist.refl _, ?_⟩
  rw [hme]
  exact forall₂_same.mpr fun m _ => Later.refl m

variable {f : MmsMessage → MmsMessage}

theorem forall₂_modify (hf : ∀ m, Later m (f m)) (l : List MmsMessage) (i : Nat) :
    List.Forall₂ Later l (l.modify i f) := by
  induction l generalizing i with
  | nil => simp
  | cons m l ih =>
    cases i with
    | zero => exact .cons (hf m) (forall₂_same.mpr fun m _ => Later.refl m)
    | succ i => exact .cons (Later.refl m) (ih i)

theorem exists_signer_of_senderIndex (h : st.senderIndex rm = some index) (ht : rm.type ≠ .signerConfig) :
    ∃ a ∈ st.signers, a.index = index ∧ a.moneroAddress = rm.sourceMoneroAddress := by
  unfold senderIndex at h
  dsimp only at h
  split at h
  · cases h
  · obtain ⟨a, hf, hi⟩ := Option.map_eq_some_iff.mp h
    exact ⟨a, List.mem_of_find?_eq_some hf, hi, by simpa using List.find?_some hf⟩

theorem reduced_modifyById (hf : ∀ m, Later m (f m)) (id : UInt32) : Reduced st (st.modifyById id f) :=
  ⟨⟨rfl, rfl⟩, rfl, st.messages, List.Sublist.refl _, forall₂_modify hf _ _⟩

@[simp] theorem messages_deleteTransportMessage (transportId : Blob) :
    (st.deleteTransportMessage transportId).messages = st.messages := by
  unfold deleteTransportMessage
  split <;> rfl

@[simp] theorem nextMessageId_deleteTransportMessage (transportId : Blob) :
    (st.deleteTransportMessage transportId).nextMessageId = st.nextMessageId := by
  unfold deleteTransportMessage
  split <;> rfl

theorem sameGroup_deleteTransportMessage (transportId : Blob) :
    SameGroup st (st.deleteTransportMessage transportId) := by
  unfold deleteTransportMessage
  split <;> exact ⟨rfl, rfl⟩

theorem reduced_setMessageProcessedOrSent (id : UInt32) (now : UInt64) :
    Reduced st (st.setMessageProcessedOrSent id now) := by
  unfold setMessageProcessedOrSent
  split
  · exact .of_messages_eq (.refl st) rfl rfl
  · next m hm =>
    split
    · have h : Reduced (st.deleteTransportMessage m.transportId)
          ((st.deleteTransportMessage m.transportId).modifyById id (marked .processed now)) := by
        refine reduced_modifyById (fun _ => ?_) id
        exact later_marked nofun
      refine ⟨(sameGroup_deleteTransportMessage _).trans h.group, h.next.trans (by simp), ?_⟩
      simpa using h.messages
    · refine reduced_modifyById (fun _ => ?_) id
      exact later_marked nofun
    all_goals exact reduced_modifyById (fun _ => later_marked fun h => h) id

theorem reduced_deleteMessage (id : UInt32) : Reduced st (st.deleteMessage id) := by
  unfold deleteMessage
  split
  · exact .of_messages_eq (.refl st) rfl rfl
  · next m hm =>
    have hg := @sameGroup_deleteTransportMessage st m.transportId
    exact ⟨⟨hg.me, hg.others⟩, by simp, _, eraseP_sublist, forall₂_same.mpr fun m _ => Later.refl m⟩

theorem deleteTransportMessages_spec (l : List MmsMessage) :
    SameGroup st (l.foldl (fun st m => st.deleteTransportMessage m.transportId) st) ∧
      (l.foldl (fun st m => st.deleteTransportMessage m.transportId) st).nextMessageId = st.nextMessageId := by
  induction l generalizing st with
  | nil => exact ⟨.refl st, rfl⟩
  | cons m l ih =>
    obtain ⟨hg, hn⟩ := @ih (st.deleteTransportMessage m.transportId)
    exact ⟨(sameGroup_deleteTransportMessage _).trans hg, hn.trans (by simp)⟩

theorem reduced_deleteAllMessages : Reduced st st.deleteAllMessages := by
  obtain ⟨hg, hn⟩ := @deleteTransportMessages_spec st st.messages
  exact ⟨⟨hg.me, hg.others⟩, hn, [], nil_sublist _, .nil⟩

theorem reduced_onReceived (data : Blob) : Reduced st (st.onReceived env state data) := by
  unfold onReceived
  repeat' split
  all_goals exact .of_messages_eq ⟨rfl, rfl⟩ rfl rfl

theorem reduced_sendMessage (id : UInt32) (out : Outside) :
    Reduced st (((st.sendMessage env state id out).map (·.1)).getD st) := by
  unfold sendMessage
  cases st.messages.find? (·.id = id) with
  | none => exact .of_messages_eq (.refl st) rfl rfl
  | some m =>
    cases hr : st.signers[m.signerIndex.toNat]? with
    | none =>
      simp only [Option.bind_eq_bind, Option.bind_some, hr]
      exact .of_messages_eq (.refl st) rfl rfl
    | some receiver =>
      simp only [Option.bind_eq_bind, Option.bind_some, hr]
      refine ⟨⟨rfl, rfl⟩, rfl, st.messages, List.Sublist.refl _, ?_⟩
      refine forall₂_map_right_iff.mpr (forall₂_same.mpr fun x _ => ?_)
      by_cases hx : x.id = id
      · simp only [hx, if_true]
        exact ⟨hx.symm, rfl, rfl, rfl, rfl, rfl, rfl, rfl, nofun⟩
      · simp only [hx, if_false]
        exact Later.refl x

theorem grown_addMessage (signerIndex : UInt32) (type : MessageType) (direction : MessageDirection) (content : Blob) :
    Grown st (st.addMessage state now signerIndex type direction content)
      [st.newMessage state now signerIndex type direction content] :=
  grown_push rfl

theorem grown_addMessages (type : MessageType) (content : Blob) (l : List Nat) :
    ∃ new, Grown st (l.foldl (fun st i => st.addMessage state now (UInt32.ofNat i) type .out content) st) new ∧
      ∀ m ∈ new, m.direction = .out ∧ m.state = .readyToSend := by
  induction l generalizing st with
  | nil => exact ⟨[], .refl st, by simp⟩
  | cons i l ih =>
    obtain ⟨new, hg, ho⟩ := @ih (st.addMessage state now (UInt32.ofNat i) type .out content)
    exact ⟨_, (grown_addMessage _ _ _ _).trans hg, by simpa [newMessage] using ho⟩

theorem grown_processWalletCreatedData (type : MessageType) (content : Blob) :
    ∃ new, Grown st (st.processWalletCreatedData numRequiredSigners state now type content) new ∧
      ∀ m ∈ new, Origin env st m (.created state now type content) := by
  have ha : ∀ type', ∃ new, Grown st ((List.range' 1 st.others.length).foldl
      (fun st i => st.addMessage state now (UInt32.ofNat i) type' .out content) st) new ∧
      ∀ m ∈ new, Origin env st m (.created state now type content) := by
    intro type'
    obtain ⟨new, hg, ho⟩ := grown_addMessages type' content (List.range' 1 st.others.length)
    exact ⟨new, hg, fun m hm => .out (ho m hm).1 (ho m hm).2⟩
  have ht : ∀ type', type' = .partiallySignedTx ∨ type' = .fullySignedTx →
      ∃ new, Grown st (st.addMessage state now 0 type' .in content) new ∧
        ∀ m ∈ new, Origin env st m (.created state now type content) := by
    intro type' hy
    exact ⟨_, grown_addMessage _ _ _ _, by simpa using .tx rfl rfl hy⟩
  cases type with
  | keySet | additionalKeySet | multisigSyncData => exact ha _
  | partiallySignedTx =>
    refine ht _ ?_
    split
    · exact Or.inr rfl
    · exact Or.inl rfl
  | fullySignedTx => exact ht _ (Or.inr rfl)
  | note | signerConfig | autoConfigData => exact ⟨[], .refl st, by simp⟩

theorem grown_checkLoop (rms : List TransportMessage) :
    Grown st (checkLoop env state now st rms).store (checkLoop env state now st rms).reported ∧
      ∀ m ∈ (checkLoop env state now st rms).reported, ∃ rm ∈ rms, st.valid env rm = true ∧
        CopyOf (st.senderIndex rm) rm m := by
  induction rms generalizing st with
  | nil => exact ⟨.refl st, by simp [checkLoop]⟩
  | cons rm rest ih =>
    rcases checkMessage_cases env state now st rm with ⟨hc, -⟩ | ⟨index, hc, hvalid, hi, -⟩ | ⟨hc, -⟩
    · rw [checkLoop_passed hc]
      obtain ⟨hg, ho⟩ := @ih st
      refine ⟨hg, fun m hm => ?_⟩
      obtain ⟨rm', hr', hr⟩ := ho m hm
      exact ⟨rm', mem_cons_of_mem _ hr', hr⟩
    · obtain ⟨hg, ho⟩ := @ih (st.push (st.incoming state now index rm))
      simp only [checkLoop, hc]
      refine ⟨(grown_push rfl).trans hg, fun m hm => ?_⟩
      rcases mem_cons.mp hm with rfl | hm
      · exact ⟨rm, mem_cons_self, hvalid, copyOf_incoming hi⟩
      · obtain ⟨rm', hr', hvalid', hp⟩ := ho m hm
        exact ⟨rm', mem_cons_of_mem _ hr', hvalid', hp⟩
    · simp only [checkLoop, hc]
      exact ⟨.refl st, by simp⟩

theorem serve_cases (env : MmsEnv) (numRequiredSigners : UInt32) (st : MmsStore) (op : Op) :
    (∃ new, Grown st (st.serve env numRequiredSigners op) new ∧ ∀ m ∈ new, Origin env st m op) ∨
      Reduced st (st.serve env numRequiredSigners op) := by
  cases op with
  | created state now type content => exact Or.inl (grown_processWalletCreatedData type content)
  | add state now signerIndex type content =>
    exact Or.inl ⟨_, grown_addMessage _ _ _ _, by simpa using .out rfl rfl⟩
  | received state data => exact Or.inr (reduced_onReceived data)
  | check state now =>
    obtain ⟨hg, hc⟩ := @grown_checkLoop env st state now (st.receiveMessages st.destinations)
    refine Or.inl ⟨_, hg, fun m hm => ?_⟩
    obtain ⟨rm, hr, hvalid, hp⟩ := hc m hm
    exact .check hr hvalid hp
  | send state id out => exact Or.inr (reduced_sendMessage id out)
  | processed id now => exact Or.inr (reduced_setMessageProcessedOrSent id now)
  | delete id => exact Or.inr (reduced_deleteMessage id)
  | deleteAll => exact Or.inr reduced_deleteAllMessages

end

end MmsStore

end Gyro.Wallet
