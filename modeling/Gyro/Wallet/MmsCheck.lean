import Gyro.Wallet.MmsDelivery

/-!
# Bad messages in the multisig message store

`check_for_messages` throws at the first message it takes whose hash or signature is
wrong. Nothing removes it, so every later call throws at the same place.
-/

namespace Gyro.Wallet

open List

namespace MmsStore

variable (env : MmsEnv) (state : MultisigWalletState) (now : UInt64) (st : MmsStore)

structure Checked where
  store : MmsStore
  reported : List MmsMessage
  threw : Bool

def checkLoop : MmsStore → List TransportMessage → Checked
  | st, [] => { store := st, reported := [], threw := false }
  | st, rm :: rest =>
    match checkMessage env state now st rm with
    | none => { store := st, reported := [], threw := true }
    | some (st, new) =>
      let c := checkLoop st rest
      { c with reported := new ++ c.reported }

/-- The message is for this signer, from a known one, with the right hash and signature. -/
def valid (rm : TransportMessage) : Bool :=
  (st.senderIndex rm).isSome && env.cnFastHash rm.content = rm.hash &&
    env.checkSignature rm.hash rm.sourceMoneroAddress.viewPublicKey rm.signature

def bad (rm : TransportMessage) : Bool := (st.senderIndex rm).isSome && !st.valid env rm

def At (rms : List TransportMessage) (before : List TransportMessage) (rm : TransportMessage) : Prop :=
  ∃ after, rms = before ++ rm :: after

def Seen (before : List TransportMessage) (hash : HashT) : Prop :=
  hash ∈ st.hashes ∨ ∃ v ∈ before, st.valid env v = true ∧ v.hash = hash

def BadSeen (rms : List TransportMessage) : Prop :=
  ∀ before rm, At rms before rm → st.bad env rm = true → st.Seen env before rm.hash

/-- A stored message is the copy of one that came in, from the signer with the index. -/
structure CopyOf (index : Option UInt32) (rm : TransportMessage) (m : MmsMessage) : Prop where
  sender : index = some m.signerIndex
  type : m.type = rm.type
  direction : m.direction = .in
  content : m.content = rm.content
  hash : m.hash = rm.hash
  round : m.round = rm.round
  sent : m.sent = rm.timestamp
  signatureCount : m.signatureCount = rm.signatureCount
  transportId : m.transportId = rm.transportId

/-- As without the invalid messages, and every valid new one is stored and reported. -/
structure Unblocked (rms : List TransportMessage) : Prop where
  same : checkLoop env state now st rms = checkLoop env state now st (rms.filter (st.valid env))
  stored : ∀ before rm, At rms before rm → st.valid env rm = true → ¬st.Seen env before rm.hash →
    ∃ m ∈ (checkLoop env state now st rms).reported,
      m ∈ (checkLoop env state now st rms).store.messages ∧ CopyOf (st.senderIndex rm) rm m

variable {env state now st} {rm : TransportMessage} {rms before rest : List TransportMessage}

theorem checkMessages_eq_checkLoop (rms : List TransportMessage) : checkMessages env state now st rms =
      if (checkLoop env state now st rms).threw then none
      else some ((checkLoop env state now st rms).store, (checkLoop env state now st rms).reported) := by
  induction rms generalizing st with
  | nil => rfl
  | cons rm rest ih =>
    cases hc : checkMessage env state now st rm with
    | none => simp [checkMessages, checkLoop, hc]
    | some next =>
      rw [checkMessages, checkLoop, hc]
      simp only [Option.bind_eq_bind, Option.bind_some, ih]
      split <;> rfl

theorem valid_iff : st.valid env rm = true ↔
    (∃ index, st.senderIndex rm = some index) ∧ env.cnFastHash rm.content = rm.hash ∧
      env.checkSignature rm.hash rm.sourceMoneroAddress.viewPublicKey rm.signature = true := by
  simp [valid, Option.isSome_iff_exists, and_assoc]

theorem checkMessage_seen (h : rm.hash ∈ st.hashes) : checkMessage env state now st rm = some (st, []) := by
  rw [checkMessage, if_pos (anyMessageWithHash_iff.mpr h)]

theorem checkMessage_ignored (h : st.senderIndex rm = none) : checkMessage env state now st rm = some (st, []) := by
  simp [checkMessage, h]

theorem checkMessage_bad (hb : st.bad env rm = true) (hn : rm.hash ∉ st.hashes) :
    checkMessage env state now st rm = none := by
  have hs : ¬st.anyMessageWithHash rm.hash = true := mt anyMessageWithHash_iff.mp hn
  simp only [bad, valid, Bool.and_eq_true, Option.isSome_iff_exists] at hb
  obtain ⟨⟨index, hi⟩, hr⟩ := hb
  rw [checkMessage, if_neg hs]
  simp only [hi, Option.isSome_some, Bool.true_and] at hr ⊢
  split
  · rfl
  · next hh =>
      have hh' : env.cnFastHash rm.content = rm.hash := not_not.mp hh
      simp only [hh', decide_true, Bool.true_and] at hr
      rw [if_pos hr]

variable {index : UInt32}

theorem checkMessage_valid (hvalid : st.valid env rm = true)
    (hi : st.senderIndex rm = some index) (hn : rm.hash ∉ st.hashes) : checkMessage env state now st rm =
      some (st.push (st.incoming state now index rm), [st.incoming state now index rm]) := by
  have hs : ¬st.anyMessageWithHash rm.hash = true := mt anyMessageWithHash_iff.mp hn
  obtain ⟨-, hh, hsi⟩ := valid_iff.mp hvalid
  simp [checkMessage, hs, hi, hh, hsi]

theorem checkMessage_cases (env : MmsEnv) (state : MultisigWalletState) (now : UInt64) (st : MmsStore)
    (rm : TransportMessage) :
    (checkMessage env state now st rm = some (st, []) ∧ (rm.hash ∈ st.hashes ∨ st.senderIndex rm = none)) ∨
    (∃ index, checkMessage env state now st rm =
        some (st.push (st.incoming state now index rm), [st.incoming state now index rm]) ∧
      st.valid env rm = true ∧ st.senderIndex rm = some index ∧ rm.hash ∉ st.hashes) ∨
    (checkMessage env state now st rm = none ∧ st.bad env rm = true ∧ rm.hash ∉ st.hashes) := by
  by_cases hs : rm.hash ∈ st.hashes
  · exact Or.inl ⟨checkMessage_seen hs, Or.inl hs⟩
  cases hi : st.senderIndex rm with
  | none => exact Or.inl ⟨checkMessage_ignored hi, Or.inr rfl⟩
  | some index =>
    by_cases hvalid : st.valid env rm = true
    · exact Or.inr (Or.inl ⟨index, checkMessage_valid hvalid hi hs, hvalid, rfl, hs⟩)
    · have hb : st.bad env rm = true := by simp [bad, hi, hvalid]
      exact Or.inr (Or.inr ⟨checkMessage_bad hb hs, hb, hs⟩)

section Push
variable (m : MmsMessage)

@[simp] theorem senderIndex_push : (st.push m).senderIndex rm = st.senderIndex rm := rfl

@[simp] theorem valid_push : (st.push m).valid env rm = st.valid env rm := rfl

@[simp] theorem bad_push : (st.push m).bad env rm = st.bad env rm := rfl

theorem valid_push_eq : (st.push m).valid env = st.valid env := rfl

end Push

theorem copyOf_incoming (hi : st.senderIndex rm = some index) :
    CopyOf (st.senderIndex rm) rm (st.incoming state now index rm) :=
  ⟨hi, rfl, rfl, rfl, rfl, rfl, rfl, rfl, rfl⟩

theorem checkLoop_passed (h : checkMessage env state now st rm = some (st, [])) :
    checkLoop env state now st (rm :: rest) = checkLoop env state now st rest := by
  simp [checkLoop, h]

theorem messages_checkLoop (rms : List TransportMessage) : (checkLoop env state now st rms).store.messages =
      st.messages ++ (checkLoop env state now st rms).reported := by
  induction rms generalizing st with
  | nil => simp [checkLoop]
  | cons rm rest ih =>
    rcases checkMessage_cases env state now st rm with ⟨h, -⟩ | ⟨index, h, -⟩ | ⟨h, -⟩ <;>
      simp [checkLoop, h, ih, push]

theorem not_threw_of_valid (h : ∀ rm ∈ rms, st.valid env rm = true) :
    (checkLoop env state now st rms).threw = false := by
  induction rms generalizing st with
  | nil => rfl
  | cons rm rest ih =>
    obtain ⟨hrm, hr⟩ := forall_mem_cons.mp h
    rcases checkMessage_cases env state now st rm with ⟨hc, -⟩ | ⟨index, hc, -⟩ | ⟨-, hb, -⟩
    · simp [checkLoop, hc, ih hr]
    · have hp := @ih (st.push (st.incoming state now index rm)) hr
      simp [checkLoop, hc, hp]
    · simp [bad, hrm] at hb

theorem At.cons (h : At rest before rm) (first : TransportMessage) : At (first :: rest) (first :: before) rm := by
  obtain ⟨after, rfl⟩ := h
  exact ⟨after, rfl⟩

theorem Seen.cons {hash : HashT} (h : st.Seen env before hash) : st.Seen env (rm :: before) hash := by
  obtain h | ⟨v, hv, hvalid, heq⟩ := h
  · exact Or.inl h
  · exact Or.inr ⟨v, mem_cons_of_mem _ hv, hvalid, heq⟩

variable {hash : HashT}

theorem seen_push_iff (hvalid : st.valid env rm = true) :
    (st.push (st.incoming state now index rm)).Seen env before hash ↔ st.Seen env (rm :: before) hash := by
  have hh : (st.incoming state now index rm).hash = rm.hash := rfl
  simp only [Seen, hashes_push, hh, mem_append, mem_cons, not_mem_nil, or_false, valid_push_eq]
  constructor
  · rintro ((h | rfl) | ⟨v, hv, hr⟩)
    · exact Or.inl h
    · exact Or.inr ⟨rm, Or.inl rfl, hvalid, rfl⟩
    · exact Or.inr ⟨v, Or.inr hv, hr⟩
  · rintro (h | ⟨v, rfl | hv, hvalid', rfl⟩)
    · exact Or.inl (Or.inl h)
    · exact Or.inl (Or.inr rfl)
    · exact Or.inr ⟨v, hv, hvalid', rfl⟩

theorem seen_cons_iff (h : rm.hash ∈ st.hashes ∨ st.senderIndex rm = none) :
    st.Seen env (rm :: before) hash ↔ st.Seen env before hash := by
  refine ⟨?_, Seen.cons⟩
  rintro (hold | ⟨v, hv, hvalid, heq⟩)
  · exact Or.inl hold
  rcases mem_cons.mp hv with rfl | hv
  · rcases h with h | h
    · exact Or.inl (heq ▸ h)
    · obtain ⟨⟨index, hi⟩, -⟩ := valid_iff.mp hvalid
      rw [h] at hi
      cases hi
  · exact Or.inr ⟨v, hv, hvalid, heq⟩

theorem BadSeen.tail (h : st.BadSeen env (rm :: rest)) (hp : rm.hash ∈ st.hashes ∨ st.senderIndex rm = none) :
    st.BadSeen env rest :=
  fun _ _ ha hb => (seen_cons_iff hp).mp (h _ _ (ha.cons rm) hb)

theorem BadSeen.tail_push (h : st.BadSeen env (rm :: rest)) (hvalid : st.valid env rm = true) :
    (st.push (st.incoming state now index rm)).BadSeen env rest :=
  fun _ _ ha hb => (seen_push_iff hvalid).mpr (h _ _ (ha.cons rm) hb)

theorem checkLoop_filter (h : st.BadSeen env rms) :
    checkLoop env state now st rms = checkLoop env state now st (rms.filter (st.valid env)) := by
  induction rms generalizing st with
  | nil => rfl
  | cons rm rest ih =>
    rcases checkMessage_cases env state now st rm with ⟨hc, hp⟩ | ⟨index, hc, hvalid, -⟩ | ⟨-, hb, hn⟩
    · have hr := ih (h.tail hp)
      by_cases hvalid : st.valid env rm = true
      · simp [checkLoop, hc, hvalid, hr]
      · simp [checkLoop, hc, hvalid, hr]
    · have ht : (st.push (st.incoming state now index rm)).BadSeen env rest := h.tail_push hvalid
      have hr := ih ht
      rw [valid_push_eq] at hr
      simp [checkLoop, hc, hvalid, hr]
    · -- The first message has none before it.
      have hs := h [] rm ⟨rest, rfl⟩ hb
      simp [Seen, hn] at hs

theorem badSeen_of_not_threw (h : (checkLoop env state now st rms).threw = false) : st.BadSeen env rms := by
  induction rms generalizing st with
  | nil =>
    rintro before rm ⟨after, hn⟩
    simp at hn
  | cons first rest ih =>
    rintro before rm ⟨after, hs⟩ hb
    rcases checkMessage_cases env state now st first with
      ⟨hc, hp⟩ | ⟨index, hc, hvalid, -⟩ | ⟨hc, -⟩
    · cases before with
      | nil =>
        cases hs
        rcases hp with hold | ho
        · exact Or.inl hold
        · simp [bad, ho] at hb
      | cons _ before =>
        cases hs
        simp only [checkLoop, hc] at h
        exact (ih h before rm ⟨after, rfl⟩ hb).cons
    · cases before with
      | nil =>
        cases hs
        simp [bad, hvalid] at hb
      | cons _ before =>
        cases hs
        simp only [checkLoop, hc] at h
        exact (seen_push_iff hvalid).mp (ih h before rm ⟨after, rfl⟩ hb)
    · simp [checkLoop, hc] at h

theorem exists_reported (h : (checkLoop env state now st rms).threw = false) (ha : At rms before rm)
    (hvalid : st.valid env rm = true) (hn : ¬st.Seen env before rm.hash) :
    ∃ m ∈ (checkLoop env state now st rms).reported, CopyOf (st.senderIndex rm) rm m := by
  obtain ⟨after, rfl⟩ := ha
  induction before generalizing st with
  | nil =>
    obtain ⟨⟨index, hi⟩, -⟩ := valid_iff.mp hvalid
    have hu : rm.hash ∉ st.hashes := fun hme => hn (Or.inl hme)
    rw [nil_append, checkLoop, checkMessage_valid hvalid hi hu]
    exact ⟨_, mem_append_left _ (mem_singleton.mpr rfl), copyOf_incoming hi⟩
  | cons first before ih =>
    rw [cons_append] at h ⊢
    rcases checkMessage_cases env state now st first with
      ⟨hc, hp⟩ | ⟨index, hc, hvalid', -⟩ | ⟨hc, -⟩
    · rw [checkLoop_passed hc] at h ⊢
      exact ih hvalid (mt (seen_cons_iff hp).mpr hn) h
    · simp only [checkLoop, hc] at h ⊢
      have hn' : ¬(st.push (st.incoming state now index first)).Seen env before rm.hash :=
        mt (seen_push_iff hvalid').mp hn
      have hvalid'' : (st.push (st.incoming state now index first)).valid env rm = true := hvalid
      obtain ⟨m, hm, ho⟩ := ih hvalid'' hn' h
      exact ⟨m, mem_append_right _ hm, ho⟩
    · simp [checkLoop, hc] at h

/-- The invalid messages make no difference if and only if each bad one is passed over as already
seen. -/
theorem bad_messages_iff (env : MmsEnv) (state : MultisigWalletState) (now : UInt64) (st : MmsStore) :
    st.Unblocked env state now (st.receiveMessages st.destinations) ↔
      st.BadSeen env (st.receiveMessages st.destinations) := by
  generalize st.receiveMessages st.destinations = rms
  have hf : (checkLoop env state now st (rms.filter (st.valid env))).threw = false :=
    not_threw_of_valid fun rm hr => (mem_filter.mp hr).2
  constructor
  · intro h
    exact badSeen_of_not_threw (h.same ▸ hf)
  · intro h
    have hs := @checkLoop_filter env state now st rms h
    have ht : (checkLoop env state now st rms).threw = false := by rw [hs]; exact hf
    refine ⟨hs, fun before rm ha hvalid hn => ?_⟩
    obtain ⟨m, hm, hc⟩ := exists_reported ht ha hvalid hn
    refine ⟨m, hm, ?_, hc⟩
    rw [messages_checkLoop]
    exact mem_append_right _ hm

/-! ## Later calls -/

theorem senderIndex_checkLoop (rms : List TransportMessage) :
    (checkLoop env state now st rms).store.senderIndex rm = st.senderIndex rm := by
  induction rms generalizing st with
  | nil => rfl
  | cons first rest ih =>
    rcases checkMessage_cases env state now st first with ⟨h, -⟩ | ⟨index, h, -⟩ | ⟨h, -⟩ <;>
      simp [checkLoop, h, ih]

theorem mem_hashes_checkLoop (h : hash ∈ st.hashes) (rms : List TransportMessage) :
    hash ∈ (checkLoop env state now st rms).store.hashes := by
  rw [hashes, messages_checkLoop, map_append]
  exact mem_append_left _ h

/-- Every later call over the same messages, and any after them, throws again and stores nothing. -/
theorem throws_again (h : (checkLoop env state now st rms).threw = true) (later : UInt64)
    (more : List TransportMessage) : checkLoop env state later (checkLoop env state now st rms).store (rms ++ more) =
      { store := (checkLoop env state now st rms).store, reported := [], threw := true } := by
  induction rms generalizing st with
  | nil => simp [checkLoop] at h
  | cons rm rest ih =>
    rcases checkMessage_cases env state now st rm with
      ⟨hc, hp⟩ | ⟨index, hc, hvalid, -⟩ | ⟨hc, hb, hn⟩
    · rw [checkLoop_passed hc] at h ⊢
      have ha : checkMessage env state later (checkLoop env state now st rest).store rm =
          some ((checkLoop env state now st rest).store, []) := by
        rcases hp with hold | ho
        · exact checkMessage_seen (mem_hashes_checkLoop hold rest)
        · exact checkMessage_ignored ((senderIndex_checkLoop rest).trans ho)
      rw [cons_append, checkLoop_passed ha, ih h]
    · simp only [checkLoop, hc] at h ⊢
      have hs : rm.hash ∈ (st.push (st.incoming state now index rm)).hashes := by
        rw [hashes_push]
        exact mem_append_right _ (mem_singleton.mpr rfl)
      rw [cons_append, checkLoop_passed (checkMessage_seen (mem_hashes_checkLoop hs rest)), ih h]
    · have ha : checkMessage env state later st rm = none := checkMessage_bad hb hn
      simp [checkLoop, hc, ha]

end MmsStore

namespace Sample

open MmsStore

def forgedNote : TransportMessage :=
  { (mmsSending .note [1]).dm with content := [2], hash := mmsEnv.cnFastHash [2] }

def forgedFirst : MmsStore := { mmsReceiver with collected := [forgedNote, (mmsSending .note [1]).dm] }

end Sample

open MmsStore Sample

theorem throws_again_for_forged_note :
    (checkLoop mmsEnv (mmsState 10) 1 (checkLoop mmsEnv (mmsState 10) 0 forgedFirst [forgedNote]).store
      ([forgedNote] ++ [(mmsSending .note [1]).dm])).threw = true := by
  rw [throws_again (by decide +kernel)]

/-- The call throws before the valid note, and so does the next; without the forged one it is
stored. -/
theorem forged_note_blocks :
    ¬forgedFirst.Unblocked mmsEnv (mmsState 10) 0 (forgedFirst.receiveMessages forgedFirst.destinations) ∧
    forgedFirst.valid mmsEnv (mmsSending .note [1]).dm = true ∧
    (let c := checkLoop mmsEnv (mmsState 10) 0 forgedFirst (forgedFirst.receiveMessages forgedFirst.destinations)
     let again := checkLoop mmsEnv (mmsState 10) 1 c.store (c.store.receiveMessages c.store.destinations)
     c.threw = true ∧ c.store.messages = [] ∧ again.threw = true ∧ again.store.messages = []) ∧
    (checkLoop mmsEnv (mmsState 10) 0 forgedFirst [(mmsSending .note [1]).dm]).reported.map (·.content) = [[1]] := by
  have ht : (checkLoop mmsEnv (mmsState 10) 0 forgedFirst
      (forgedFirst.receiveMessages forgedFirst.destinations)).threw = true := by decide +kernel
  refine ⟨fun h => ?_, by decide +kernel, by decide +kernel, by decide +kernel⟩
  rw [h.same] at ht
  cases ht

end Gyro.Wallet
