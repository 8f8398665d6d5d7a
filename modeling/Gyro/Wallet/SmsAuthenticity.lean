import Gyro.Wallet.SmsDelivery
import Gyro.Wallet.SmsOutbox

/-!
# Who a message is from

Signed are the text, the label and the sender's address with nothing between them. A
stored message shows that the owner of the view key signed these bytes, and no more.
-/

namespace Gyro.Wallet

open KeyValue Msgpack Runs

structure Call where
  wallet : SmsWallet
  addressBook : List AddressBookRow
  msg : Data

def Call.text (env : SmsEnv) (c : Call) : Blob := c.msg.d ++ c.wallet.label ++ ownAddress env c.wallet

def Call.signs (env : SmsEnv) (c : Call) : Bool := (recipient env c.addressBook c.msg.ta).isSome

structure Network where
  server : Server
  calls : List Call

inductive NetworkOp where
  | call (c : Call)
  | serve (op : SmsOp)

def Network.step (env : SmsEnv) (w : SmsWallet) (s : Network) : NetworkOp → Option Network
  | .call c => some { s with calls := s.calls ++ [c] }
  | .serve op => some { s with server := serve env w s.server op }

def signedText (sign : DataSign) : Blob := sign.d ++ sign.n ++ sign.a

/-- A signature that passes for a view key is of a hash that the key's owner signed. -/
def Unforged (env : SmsEnv) (calls : List Call) (sign : DataSign) (info : AddressParseInfo) : Prop :=
  ∃ c ∈ calls, c.signs env ∧ c.wallet.address.viewPublicKey = info.address.viewPublicKey ∧
    env.cnFastHash (c.text env) = env.cnFastHash (signedText sign)

def Collisionless (env : SmsEnv) (calls : List Call) (sign : DataSign) : Prop :=
  ∀ c ∈ calls, env.cnFastHash (c.text env) = env.cnFastHash (signedText sign) → c.text env = signedText sign

instance (env : SmsEnv) (calls : List Call) (sign : DataSign) (info : AddressParseInfo) :
    Decidable (Unforged env calls sign info) :=
  inferInstanceAs (Decidable (∃ c ∈ calls, _))

instance (env : SmsEnv) (calls : List Call) (sign : DataSign) : Decidable (Collisionless env calls sign) :=
  inferInstanceAs (Decidable (∀ c ∈ calls, _))

/-- Any payload, with signatures that have been made; and there are numbers left. -/
def Admissible (env : SmsEnv) (w : SmsWallet) (s : Network) : NetworkOp → Prop
  | .call _ => True
  | .serve op => Roomy s.server ∧ ∀ sign ∈ opened env w op, ∀ info ∈ verifySender env sign,
      Unforged env s.calls sign info ∧ Collisionless env s.calls sign

/-- The owner of the view key called `send_to` for a message whose text, label and address in a row
are the record's. -/
def Authentic (env : SmsEnv) (calls : List Call) (record : Data) : Prop :=
  ∃ c ∈ calls, ∃ info, env.getAccountAddressFromStrOrUrl record.fa = some info ∧
    c.wallet.address.viewPublicKey = info.address.viewPublicKey ∧
    c.text env = record.d ++ record.f ++ record.fa

def receivedRecords (env : SmsEnv) (w : SmsWallet) (st : Server) : List Data :=
  (st.data.under messagesKey).filterMap fun entry =>
    match readMessageKey entry.1 with
    | some (_, _, _, f) => if f = messageReceived then readData env w entry.2 else none
    | none => none

structure Vouched (env : SmsEnv) (w : SmsWallet) (s : Network) (logs : HashT → List LogEntry) : Prop where
  logged : Logged env w s.server logs
  only : OnlyMessages s.server.data
  authentic : ∀ h, ∀ e ∈ logs h, e.flag = messageReceived → Authentic env s.calls e.info

section
variable {env : SmsEnv} {w : SmsWallet} {s s' : Network} {logs : HashT → List LogEntry} {record : Data}

theorem Authentic.mono {calls : List Call} {c : Call} (h : Authentic env calls record) :
    Authentic env (calls ++ [c]) record := by
  obtain ⟨c', hc', hr⟩ := h
  exact ⟨c', List.mem_append_left _ hc', hr⟩

theorem onlyMessages_serve {st : Server} {op : SmsOp} (ho : OnlyMessages st.data) :
    OnlyMessages (serve env w st op).data := by
  cases op with
  | put dest text now r =>
    simp only [serve, smsPut]
    split
    next => exact ho
    next =>
      split
      next => exact ho
      next => exact onlyMessages_storeMessage ho
  | receive payload now r opens =>
    have hoe : OnlyMessages ({ st with opened := true } : Server).data := ho
    simp only [serve, onReceived]
    split
    next => exact ho
    next =>
      split
      next => exact ho
      next =>
        split
        next => exact ho
        next =>
          split
          next => exact ho
          next =>
            cases w.watchOnly <;> split_ifs <;> exact onlyMessages_storeMessage hoe

theorem authentic_of_verified {calls : List Call} {sign : DataSign} {info : AddressParseInfo} {now : UInt64}
    (hi : verifySender env sign = some info) (hu : Unforged env calls sign info)
    (ho : Collisionless env calls sign) : Authentic env calls (receivedData env w sign now) := by
  obtain ⟨c, hc, -, hk, hh⟩ := hu
  have hr : env.getAccountAddressFromStrOrUrl sign.a = some info := by
    unfold verifySender at hi
    cases hp : env.getAccountAddressFromStrOrUrl sign.a with
    | none => simp [hp] at hi
    | some parsed =>
      simp only [hp, Option.ite_none_right_eq_some] at hi
      exact hi.2
  exact ⟨c, hc, info, hr, hk, ho c hc hh⟩

theorem Vouched.step {op : NetworkOp} (hs : ∃ logs, Vouched env w s logs) (ho : Admissible env w s op)
    (ht : s.step env w op = some s') : ∃ logs, Vouched env w s' logs := by
  obtain ⟨logs, hs⟩ := hs
  cases op with
  | call c =>
    cases ht
    exact ⟨logs, hs.logged, hs.only, fun h e he hf => (hs.authentic h e he hf).mono⟩
  | serve op =>
    cases ht
    obtain ⟨hr, hg⟩ := ho
    obtain ⟨logs', hl, ha⟩ := hs.logged.serve hr
    refine ⟨logs', hl, onlyMessages_serve hs.only, fun h e he hf => ?_⟩
    rcases ha h e he with hold | hse | ⟨sign, info, now, hsi, hi, hc⟩
    · exact hs.authentic h e hold hf
    · exact absurd (hf.symm.trans hse) (by decide)
    · obtain ⟨hu, hco⟩ := hg sign hsi info hi
      exact hc ▸ authentic_of_verified hi hu hco

theorem Vouched.authentic_stored (hs : Vouched env w s logs) (hc : record ∈ receivedRecords env w s.server) :
    Authentic env s.calls record := by
  obtain ⟨entry, hn, hr⟩ := List.mem_filterMap.mp hc
  obtain ⟨q, hq, rfl⟩ := (mem_under_messagesKey hs.logged hs.only).mp hn
  simp only [Queued.stored, readMessageKey_messageKey (hs.logged.flags _ _ hq.mem), hs.logged.readable _ _ hq.mem,
    Option.ite_none_right_eq_some, Option.some.injEq] at hr
  obtain ⟨hf, rfl⟩ := hr
  exact hs.authentic _ _ hq.mem hf

end

theorem everyStep_serve {env : SmsEnv} {w : SmsWallet} {s : Network} {op : SmsOp} {ops : List NetworkOp}
    (ho : Admissible env w s (.serve op)) (hr : EveryStep (Network.step env w) (Admissible env w)
      { s with server := serve env w s.server op } ops) :
    EveryStep (Network.step env w) (Admissible env w) s (.serve op :: ops) := by
  refine everyStep_cons ho fun t ht => ?_
  cases ht
  exact hr

/-- In every network, whatever is handed to the wallet's server. -/
theorem received_messages_signed (env : SmsEnv) (w : SmsWallet) (opened : Bool) (addressBook : List AddressBookRow)
    (ops : List NetworkOp) (s : Network)
    (hops : EveryStep (Network.step env w) (Admissible env w) ⟨⟨opened, Store.empty, addressBook⟩, []⟩ ops)
    (hrun : run (Network.step env w) ⟨⟨opened, Store.empty, addressBook⟩, []⟩ ops = some s)
    (record : Data) (hrecord : record ∈ receivedRecords env w s.server) : Authentic env s.calls record := by
  have hf : Vouched env w ⟨⟨opened, Store.empty, addressBook⟩, []⟩ fun _ => [] := by
    refine ⟨⟨fun _ => rfl, fun _ => rfl, by simp, by simp, fun _ _ => rfl⟩, ?_, by simp⟩
    simp [OnlyMessages, Store.empty, Store.under]
  obtain ⟨logs, hs⟩ := run_invariant (I := fun s => ∃ logs, Vouched env w s logs)
    (fun _ _ _ hs ho ht => Vouched.step hs ho ht) ⟨_, hf⟩ hops hrun
  exact hs.authentic_stored hrecord

def Value.fits : Value → Bool
  | .number n => n.toNat + 1 < 2 ^ 64
  | .cipher _ => true

theorem roomy_of_fits {st : Server} (hf : st.data.entries.all (·.2.fits)) : Roomy st := by
  intro h
  unfold storedCounter
  split
  next n hg =>
    have hn := List.all_eq_true.mp hf _ (Store.get?_eq_some_iff.mp hg)
    simpa [Value.fits] using hn
  next => decide

namespace Sample

def callToThird : Call :=
  { wallet := smsWallet 1, addressBook := [⟨(smsWallet 3).address, false, []⟩], msg := messageTo (smsWallet 3) [5] }

def signedForThird : DataSign := signMessage smsEnv (smsWallet 1) [5] 3

def shifted : DataSign := { signedForThird with d := signedForThird.d ++ signedForThird.n, n := [] }

def wrapped (sign : DataSign) : NetworkOp :=
  .serve (.receive (smsEnv.version.pack ⟨0, 1⟩ ++
    ((smsEnv.suite.encrypt (smsWallet 2).address.viewPublicKey (smsEnv.sign.pack sign) ephemeral).map
      smsEnv.cipher.pack).getD []) 101 ephemeral true)

def forwarding : List NetworkOp := [.call callToThird, wrapped signedForThird, wrapped signedForThird, wrapped shifted]

end Sample

open Sample in
theorem admissible_forwarding :
    EveryStep (Network.step smsEnv (smsWallet 2)) (Admissible smsEnv (smsWallet 2)) ⟨⟨true, Store.empty, []⟩, []⟩
      forwarding := by
  refine everyStep_cons trivial fun s hs => ?_
  cases hs
  refine everyStep_serve ⟨roomy_of_fits rfl, by decide +kernel⟩ ?_
  refine everyStep_serve ⟨roomy_of_fits (by decide +kernel), by decide +kernel⟩ ?_
  exact everyStep_serve ⟨roomy_of_fits (by decide +kernel), by decide +kernel⟩ everyStep_nil

open Sample in
theorem received_messages_signed_forwarded :
    ∃ s, run (Network.step smsEnv (smsWallet 2)) ⟨⟨true, Store.empty, []⟩, []⟩ forwarding = some s ∧
      receivedData smsEnv (smsWallet 2) shifted 101 ∈ receivedRecords smsEnv (smsWallet 2) s.server ∧
      Authentic smsEnv s.calls (receivedData smsEnv (smsWallet 2) shifted 101) := by
  refine ⟨_, rfl, by decide +kernel, ?_⟩
  exact received_messages_signed smsEnv (smsWallet 2) true [] forwarding _ admissible_forwarding rfl _ (by decide +kernel)

open Sample in
/-- Wallet 1 called `send_to` once, for wallet 3; wallet 2 has three messages from them. -/
theorem forwarded_message_stored :
    EveryStep (Network.step smsEnv (smsWallet 2)) (Admissible smsEnv (smsWallet 2)) ⟨⟨true, Store.empty, []⟩, []⟩
        forwarding ∧ ∃ s, run (Network.step smsEnv (smsWallet 2)) ⟨⟨true, Store.empty, []⟩, []⟩ forwarding = some s ∧
      s.calls = [callToThird] ∧ callToThird.msg.ta ≠ ownAddress smsEnv (smsWallet 2) ∧
      (receivedRecords smsEnv (smsWallet 2) s.server).map (fun m => (m.d, m.f, m.fa)) =
        [([5], [1], ownAddress smsEnv (smsWallet 1)), ([5], [1], ownAddress smsEnv (smsWallet 1)),
          ([5, 1], [], ownAddress smsEnv (smsWallet 1))] := by
  refine ⟨admissible_forwarding, _, rfl, rfl, ?_, ?_⟩ <;> decide +kernel

end Gyro.Wallet
