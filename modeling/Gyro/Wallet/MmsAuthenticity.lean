import Gyro.Lib.Runs
import Gyro.Wallet.MmsSteps

/-!
# Who a multisig message is from

The hash of the content is signed, and the type, round and destination are not. A message
in the store shows that its signer sent this content, and no more.
-/

namespace Gyro.Wallet

open List

namespace MmsStore

open Runs

structure SendCall where
  store : MmsStore
  state : MultisigWalletState
  id : UInt32
  out : Outside

def SendCall.produced (env : MmsEnv) (c : SendCall) : Option TransportMessage := do
  let m ← c.store.messages.find? (·.id = c.id)
  let receiver ← c.store.signers[m.signerIndex.toNat]?
  return c.store.transportMessage env c.state m receiver c.out

/-- All calls of `send_message`, one store, and what its `check_for_messages` has stored. -/
structure Exchange where
  store : MmsStore
  calls : List SendCall
  taken : List MmsMessage

inductive ExchangeOp where
  | call (c : SendCall)
  | serve (op : Op)

section
variable (env : MmsEnv) (numRequiredSigners : UInt32)

def takenBy (st : MmsStore) : Op → List MmsMessage
  | .check state now => (checkLoop env state now st (st.receiveMessages st.destinations)).reported
  | _ => []

def Exchange.step (s : Exchange) : ExchangeOp → Option Exchange
  | .call c => some { s with calls := s.calls ++ [c] }
  | .serve op =>
    some { s with store := s.store.serve env numRequiredSigners op, taken := s.taken ++ takenBy env s.store op }

/-- The owner of the view key signed the hash, and no other signed content has it. -/
def Signed (calls : List SendCall) (rm : TransportMessage) : Prop :=
  (∃ c ∈ calls, ∃ dm ∈ c.produced env,
    dm.sourceMoneroAddress.viewPublicKey = rm.sourceMoneroAddress.viewPublicKey ∧ dm.hash = rm.hash) ∧
  ∀ c ∈ calls, ∀ dm ∈ c.produced env, dm.hash = env.cnFastHash rm.content → dm.content = rm.content

def Unforged (s : Exchange) : ExchangeOp → Prop
  | .serve (.check _ _) => ∀ rm ∈ s.store.receiveMessages s.store.destinations,
      rm.sourceMoneroAddress ∈ s.store.signers.map (·.moneroAddress) →
      env.checkSignature rm.hash rm.sourceMoneroAddress.viewPublicKey rm.signature = true → Signed env s.calls rm
  | _ => True

def IsSender (st : MmsStore) (m : MmsMessage) (a : AuthorizedSigner) : Prop :=
  a ∈ st.signers ∧ a.index = m.signerIndex

def ContentSent (calls : List SendCall) (st : MmsStore) (m : MmsMessage) : Prop :=
  ∃ a, st.IsSender m a ∧ ∃ c ∈ calls, ∃ dm ∈ c.produced env,
    dm.sourceMoneroAddress.viewPublicKey = a.moneroAddress.viewPublicKey ∧ dm.content = m.content

def Sent (calls : List SendCall) (st : MmsStore) (m : MmsMessage) : Prop :=
  ∃ a, st.IsSender m a ∧ ∃ c ∈ calls, ∃ dm ∈ c.produced env,
    dm.sourceMoneroAddress.viewPublicKey = a.moneroAddress.viewPublicKey ∧ dm.content = m.content ∧
    dm.type = m.type ∧ dm.round = m.round ∧ dm.destinationMoneroAddress = st.me.moneroAddress

end

section
variable {env : MmsEnv} {numRequiredSigners : UInt32} {st after : MmsStore} {s t : Exchange} {op : ExchangeOp}
  {calls more : List SendCall} {m : MmsMessage} {rm : TransportMessage}

theorem ContentSent.mono (h : ContentSent env calls st m) (ha : calls ⊆ more) (hg : SameGroup st after) :
    ContentSent env more after m := by
  obtain ⟨a, ⟨hme, hi⟩, c, hc, hr⟩ := h
  refine ⟨a, ⟨?_, hi⟩, c, ha hc, hr⟩
  rwa [signers, hg.me, hg.others]

theorem sameGroup_serve (op : Op) : SameGroup st (st.serve env numRequiredSigners op) := by
  rcases serve_cases env numRequiredSigners st op with ⟨new, hg, -⟩ | hr
  · exact hg.group
  · exact hr.group

theorem contentSent_of_taken {op : Op} (hu : Unforged env s (.serve op)) (hm : m ∈ takenBy env s.store op)
    (ht : m.type ≠ .signerConfig) : ContentSent env s.calls s.store m := by
  cases op with
  | check state now =>
    obtain ⟨rm, hr, hvalid, ho⟩ := (grown_checkLoop _).2 m hm
    obtain ⟨-, hh, hs⟩ := valid_iff.mp hvalid
    obtain ⟨a, ha, hi, hd⟩ := exists_signer_of_senderIndex ho.sender (ho.type ▸ ht)
    have hg : rm.sourceMoneroAddress ∈ s.store.signers.map (·.moneroAddress) := by
      rw [← hd]
      exact mem_map_of_mem ha
    obtain ⟨⟨c, hc, dm, hdm, hk, hsa⟩, hie⟩ := hu rm hr hg hs
    have hn : dm.content = rm.content := hie c hc dm hdm (hsa.trans hh.symm)
    exact ⟨a, ⟨ha, hi⟩, c, hc, dm, hdm, by rw [hd, hk], hn.trans ho.content.symm⟩
  | _ => cases hm

theorem contentSent_step (h : ∀ m ∈ s.taken, m.type ≠ .signerConfig → ContentSent env s.calls s.store m)
    (hu : Unforged env s op) (ht : s.step env numRequiredSigners op = some t) :
    ∀ m ∈ t.taken, m.type ≠ .signerConfig → ContentSent env t.calls t.store m := by
  intro m hm hy
  cases op with
  | call c =>
    cases ht
    exact (h m hm hy).mono (subset_append_left _ _) (.refl _)
  | serve op =>
    cases ht
    rcases mem_append.mp hm with hold | hn
    · exact (h m hold hy).mono (List.Subset.refl _) (sameGroup_serve op)
    · exact (contentSent_of_taken hu hn hy).mono (List.Subset.refl _) (sameGroup_serve op)

/-- In every exchange, whatever the store is made to fetch. -/
theorem taken_contents_sent (env : MmsEnv) (numRequiredSigners : UInt32) (st : MmsStore) {ops : List ExchangeOp}
    (hunforged : EveryStep (Exchange.step env numRequiredSigners) (Unforged env) ⟨st, [], []⟩ ops)
    (hrun : run (Exchange.step env numRequiredSigners) ⟨st, [], []⟩ ops = some t) :
    ∀ m ∈ t.taken, m.type ≠ .signerConfig → ContentSent env t.calls t.store m := by
  refine run_invariant (I := fun t : Exchange =>
    ∀ m ∈ t.taken, m.type ≠ .signerConfig → ContentSent env t.calls t.store m)
    (fun _ _ _ hs ho ht => contentSent_step hs ho ht) ?_ hunforged hrun
  simp

end

end MmsStore

namespace Sample

open MmsStore

def groupOfThree : MmsStore := { mmsSender with others := [⟨⟨11, 10⟩, 1, true⟩, ⟨⟨31, 30⟩, 2, true⟩] }

def noteForThird : SendCall :=
  ⟨groupOfThree.addMessage (mmsState 20) 0 2 .note .out [1], mmsState 20, 1, ⟨0, [], goesOut⟩⟩

def noteOnItsWay : TransportMessage :=
  groupOfThree.transportMessage mmsEnv (mmsState 20) (groupOfThree.newMessage (mmsState 20) 0 2 .note .out [1])
    ⟨⟨31, 30⟩, 2, true⟩ ⟨0, [], goesOut⟩

def noteAsKeySet : TransportMessage :=
  { noteOnItsWay with type := .keySet, round := 7, destinationMoneroAddress := ⟨11, 10⟩ }

def passedOn : List ExchangeOp := [.call noteForThird, .serve (.check (mmsState 10) 0)]

end Sample

namespace MmsStore

open Sample Runs

theorem produced_noteForThird : noteForThird.produced mmsEnv = some noteOnItsWay := rfl

theorem unforged_passedOn :
    EveryStep (Exchange.step mmsEnv 2) (Unforged mmsEnv) ⟨{ mmsReceiver with collected := [noteAsKeySet] }, [], []⟩
      passedOn := by
  refine everyStep_cons trivial fun t ht => ?_
  cases ht
  refine everyStep_cons (fun rm hr _ _ => ?_) fun _ _ => everyStep_nil
  have hme : rm ∈ [noteAsKeySet] := (mem_filter.mp hr).1
  cases mem_singleton.mp hme
  refine ⟨⟨noteForThird, mem_singleton.mpr rfl, noteOnItsWay, produced_noteForThird, rfl, rfl⟩, ?_⟩
  intro c hc dm hd _
  cases mem_singleton.mp hc
  cases produced_noteForThird.symm.trans hd
  rfl

/-- A note for the third signer is stored by the first as a key set of round 7. -/
theorem taken_contents_sent_note :
    ∃ t, run (Exchange.step mmsEnv 2) ⟨{ mmsReceiver with collected := [noteAsKeySet] }, [], []⟩ passedOn = some t ∧
      t.taken.map (fun m => (m.type, m.round, m.signerIndex, m.content)) = [(.keySet, 7, 1, [1])] ∧
      ∀ m ∈ t.taken, m.type ≠ .signerConfig → ContentSent mmsEnv t.calls t.store m := by
  obtain ⟨t, hr⟩ : ∃ t, run (Exchange.step mmsEnv 2) ⟨{ mmsReceiver with collected := [noteAsKeySet] }, [], []⟩
      passedOn = some t := ⟨_, rfl⟩
  have hf : (run (Exchange.step mmsEnv 2) ⟨{ mmsReceiver with collected := [noteAsKeySet] }, [], []⟩
      passedOn).map (fun t => t.taken.map (fun m => (m.type, m.round, m.signerIndex, m.content))) =
      some [(.keySet, 7, 1, [1])] := by decide +kernel
  rw [hr] at hf
  exact ⟨t, hr, Option.some.inj hf, taken_contents_sent mmsEnv 2 _ unforged_passedOn hr⟩

/-- The signatures of the note are genuine, and what the store takes is not what was sent. -/
theorem note_taken_as_key_set :
    EveryStep (Exchange.step mmsEnv 2) (Unforged mmsEnv) ⟨{ mmsReceiver with collected := [noteAsKeySet] }, [], []⟩
        passedOn ∧
      ∃ t, run (Exchange.step mmsEnv 2) ⟨{ mmsReceiver with collected := [noteAsKeySet] }, [], []⟩ passedOn = some t ∧
        ∃ m ∈ t.taken, m.type ≠ .signerConfig ∧ ¬Sent mmsEnv t.calls t.store m := by
  refine ⟨unforged_passedOn, _, rfl, _, mem_singleton.mpr rfl, by decide, ?_⟩
  rintro ⟨a, -, c, hc, dm, hd, -, -, ht, -⟩
  cases mem_singleton.mp hc
  cases produced_noteForThird.symm.trans hd
  cases ht

end MmsStore

end Gyro.Wallet
