import Gyro.TxExtra
import Gyro.Wallet.Callbacks
import Gyro.Wallet.SmsLog

/-!
# A message from one wallet to another

The message goes signed and encrypted into the extra of a transaction. The receiver opens
it with the view key of the main address and stores it.
-/

namespace Gyro.Wallet

open KeyValue Msgpack Runs

def SignaturesCheck (env : SmsEnv) : Prop :=
  ∀ hash sec k, env.checkSignature hash (env.suite.secretKeyToPublicKey sec)
    (env.generateSignature hash (env.suite.secretKeyToPublicKey sec) sec k)

/-- The wallet's view keys belong together, and its address can be read back. -/
structure SmsWallet.Valid (env : SmsEnv) (w : SmsWallet) : Prop where
  viewKeys : w.address.viewPublicKey = env.suite.secretKeyToPublicKey w.viewSecretKey
  readBack : env.getAccountAddressFromStrOrUrl (ownAddress env w) = some ⟨w.address, false⟩

def RowsReadBack (env : SmsEnv) (book : List AddressBookRow) : Prop :=
  ∀ row ∈ book, env.getAccountAddressFromStrOrUrl (env.getAccountAddressAsStr row.isSubaddress row.address) =
    some ⟨row.address, row.isSubaddress⟩

section
variable {env : SmsEnv} {s w : SmsWallet} {book : List AddressBookRow} {d sms : Blob} {t : SendTry}

theorem openMessage_smsPayload (hw : w.Valid env) (hsm : smsPayload env s w.address.viewPublicKey d t = some sms) :
    openMessage env w sms = some (signMessage env s d t.scalar) := by
  obtain ⟨c, hc, rfl⟩ := Option.map_eq_some_iff.mp hsm
  rw [hw.viewKeys] at hc
  have hs := env.sign.unpack_pack (signMessage env s d t.scalar) []
  have hi := env.cipher.unpack_pack c []
  simp only [List.append_nil] at hs hi
  simp [openMessage, env.version.unpack_pack, hi, CipherSuite.decrypt_encrypt hc, hs]

theorem exists_smsPayload (hw : w.Valid env) (d : Blob) (t : SendTry) :
    ∃ sms, smsPayload env s w.address.viewPublicKey d t = some sms := by
  rw [← Option.isSome_iff_exists, smsPayload, Option.isSome_map, hw.viewKeys]
  exact CipherSuite.isSome_encrypt _ _

theorem verifySender_signMessage (hg : SignaturesCheck env) (hs : s.Valid env) (d : Blob) (k : SecretKey) :
    verifySender env (signMessage env s d k) = some ⟨s.address, false⟩ := by
  have hc := hg (env.cnFastHash (d ++ s.label ++ ownAddress env s)) s.viewSecretKey k
  rw [← hs.viewKeys] at hc
  simp only [verifySender, signMessage, hs.readBack, signedHash, hc, if_true]

theorem recipient_ownAddress (hw : w.Valid env) (hs : RowsReadBack env book)
    (hb : ∃ row ∈ book, row.address = w.address ∧ row.isSubaddress = false) :
    ∃ row, recipient env book (ownAddress env w) = some row ∧ row.address = w.address := by
  obtain ⟨row, hrw, ha, hsb⟩ := hb
  have ho : (recipient env book (ownAddress env w)).isSome := by
    refine List.find?_isSome.mpr ⟨row, hrw, decide_eq_true ?_⟩
    rw [ownAddress, ha, hsb]
  obtain ⟨row', hr'⟩ := Option.isSome_iff_exists.mp ho
  have hr := hs row' (List.mem_of_find?_eq_some hr')
  have hn : ownAddress env w = env.getAccountAddressAsStr row'.isSubaddress row'.address := by
    simpa using List.find?_some hr'
  rw [← hn, hw.readBack] at hr
  have hp := Option.some.inj hr
  exact ⟨row', hr', (congrArg AddressParseInfo.address hp).symm⟩

/-! ## The receiver's store -/

variable {st : Server} {logs : HashT → List LogEntry} {payload : Blob} {opens : Bool}

def Roomy (st : Server) : Prop := ∀ h, (storedCounter st.data h).toNat + 1 < 2 ^ 64

theorem Logged.put {dest text : Blob} {now : UInt64} {r : Ephemeral} (hl : Logged env w st logs)
    (hr : Roomy st) : ∃ logs', Logged env w (smsPut env w st dest text now r).1 logs' ∧
      ∀ h, ∀ e ∈ logs' h, e ∈ logs h ∨ e.flag = messageToSend := by
  unfold smsPut
  by_cases ha : w.watchOnly
  · exact ⟨logs, by simpa [ha] using hl, fun _ _ => Or.inl⟩
  · obtain ⟨c, hc, hre⟩ := exists_encrypt env w (putData env w st dest text now) r
    have hf : messageToSend < 2 ^ 64 := by decide
    simp only [ha, hc, Bool.false_eq_true, if_false]
    by_cases ho : st.opened
    · refine ⟨_, hl.store (e := ⟨_, _, _, c⟩) ho now (hr _) hre hf, fun h e he => ?_⟩
      rcases mem_update_append he with hold | rfl
      exacts [Or.inl hold, Or.inr rfl]
    · refine ⟨logs, ?_, fun _ _ => Or.inl⟩
      simpa [Server.storeMessage, Server.write, ho] using hl

theorem Logged.receive {sign : DataSign} {info : AddressParseInfo} (hl : Logged env w st logs) (ho : Roomy st)
    (hoe : ¬ (!st.opened && !opens)) (hs : openMessage env w payload = some sign)
    (hi : verifySender env sign = some info) (now : UInt64) (r : Ephemeral) :
    ∃ c, readData env w (.cipher c) = some (receivedData env w sign now) ∧
      Logged env w (Wallet.onReceived env w st payload now r opens)
        (Function.update logs (receivedUnder env w sign).1 (logs (receivedUnder env w sign).1 ++
          [⟨receivedData env w sign now, (receivedUnder env w sign).2, messageReceived, c⟩])) := by
  obtain ⟨c, hc, hr⟩ := exists_encrypt env w (receivedData env w sign now) r
  have hf : messageReceived < 2 ^ 64 := by decide
  have ht := hl.open.store (h := (receivedUnder env w sign).1)
    (e := ⟨_, (receivedUnder env w sign).2, _, c⟩) rfl now (ho _) hr hf
  exact ⟨c, hr, Logged.onReceived hoe hs hi hc ht⟩

theorem Logged.serve {op : SmsOp} (hl : Logged env w st logs) (hr : Roomy st) :
    ∃ logs', Logged env w (serve env w st op) logs' ∧ ∀ h, ∀ e ∈ logs' h, e ∈ logs h ∨ e.flag = messageToSend ∨
      ∃ sign info now, opened env w op = some sign ∧ verifySender env sign = some info ∧
        e.info = receivedData env w sign now := by
  have ha : ∀ st', Logged env w st' logs → ∃ logs', Logged env w st' logs' ∧ ∀ h, ∀ e ∈ logs' h, e ∈ logs h ∨
      e.flag = messageToSend ∨ ∃ sign info now, opened env w op = some sign ∧ verifySender env sign = some info ∧
        e.info = receivedData env w sign now :=
    fun st' hs' => ⟨logs, hs', fun _ _ => Or.inl⟩
  cases op with
  | put dest text now r =>
    obtain ⟨logs', hp, hae⟩ := @Logged.put env w st logs dest text now r hl hr
    exact ⟨logs', hp, fun h e he => (hae h e he).imp_right Or.inl⟩
  | receive payload now r opens =>
    by_cases hc : !st.opened && !opens
    · apply ha
      simpa only [Wallet.serve, Wallet.onReceived, hc, if_true] using hl
    · cases hs : openMessage env w payload with
      | none =>
        apply ha
        simpa [Wallet.serve, Wallet.onReceived, hc, hs] using hl.open
      | some sign =>
        cases hi : verifySender env sign with
        | none =>
          apply ha
          simpa [Wallet.serve, Wallet.onReceived, hc, hs, hi] using hl.open
        | some info =>
          obtain ⟨c, -, hrc⟩ := hl.receive hr hc hs hi now r
          refine ⟨_, hrc, fun h e he => ?_⟩
          rcases mem_update_append he with hold | rfl
          · exact Or.inl hold
          · exact Or.inr (Or.inr ⟨sign, info, now, hs, hi, rfl⟩)

theorem Logged.find_last {h : HashT} {e : LogEntry} (hl : Logged env w st (Function.update logs h (logs h ++ [e])))
    (ho : st.opened) : (st.counter h).toNat = (logs h).length + 1 ∧
      st.find h (st.counter h) = [(messageKey h (st.counter h) e.other e.flag, .cipher e.cipher)] := by
  have hc : (st.counter h).toNat = (logs h).length + 1 := by
    rw [counter_eq ho, hl.counters h]
    simp
  refine ⟨hc, ?_⟩
  have hn : 1 ≤ st.counter h := by
    rw [UInt64.le_iff_toNat_le, hc]
    exact Nat.le_add_left _ _
  have hd : (logs h ++ [e]).drop ((st.counter h).toNat - 1) = [e] := by
    rw [hc]
    simp
  rw [hl.find_eq hn, Function.update_self, hd]
  simp [logEntries]

end

/-- The last one of the contact, from the party and with the record given, and `_sms_array` lists
it. -/
structure Arrived (env : SmsEnv) (w : SmsWallet) (st st' : Server) (contact other : Blob) (record : Data) : Prop where
  numbered : (smsCount env w st' contact).toNat = (storedCounter st.data (contactHash env w contact)).toNat + 1
  stored : ∃ c, st'.find (contactHash env w contact) (smsCount env w st' contact) =
    [(messageKey (contactHash env w contact) (smsCount env w st' contact) (contactHash env w other) messageReceived,
      .cipher c)] ∧ readData env w (.cipher c) = some record
  listed : smsArray env w st' contact (smsCount env w st' contact) 1 = [arrayItem env w record]
  listedOwn : contact = ownAddress env w →
    ownSmsArray env w st' (smsCount env w st' contact) 1 = [{ sender := record.f, sms := record.d, ts := record.ts }]

theorem Logged.arrived {env : SmsEnv} {w : SmsWallet} {st st' : Server} {logs : HashT → List LogEntry}
    {contact other : Blob} {record : Data} {c : DataCipher} (hl : Logged env w st logs)
    (hl' : Logged env w st' (Function.update logs (contactHash env w contact)
      (logs (contactHash env w contact) ++ [⟨record, contactHash env w other, messageReceived, c⟩])))
    (ho : st'.opened) (hr : readData env w (.cipher c) = some record) : Arrived env w st st' contact other record := by
  obtain ⟨hc, hf⟩ := hl'.find_last ho
  refine ⟨?_, ⟨c, hf, hr⟩, ?_, ?_⟩
  · rw [smsCount, hc, hl.counters]
  · simp [smsArray, smsCount, hf, smsItems, hr, arrayItem]
  · rintro rfl
    simp [ownSmsArray, smsCount, hf, ownSmsItems, hr]

def serveStep (env : SmsEnv) (w : SmsWallet) (st : Server) (op : SmsOp) : Option Server := some (serve env w st op)

theorem Logged.serveStep {env : SmsEnv} {w : SmsWallet} {st st' : Server} {op : SmsOp}
    (hs : ∃ logs, Logged env w st logs) (hr : Roomy st) (hp : serveStep env w st op = some st') :
    ∃ logs, Logged env w st' logs := by
  cases hp
  obtain ⟨logs, hl⟩ := hs
  obtain ⟨logs', hsr, -⟩ := hl.serve hr
  exact ⟨logs', hsr⟩

/-- A message to a main address in the address book is kept under the sender's contact, and by a
receiver that can only watch under its own. -/
theorem sms_reaches_receiver (env : SmsEnv) (hsig : SignaturesCheck env) (s w : SmsWallet) (hs : s.Valid env)
    (hw : w.Valid env) (book : List AddressBookRow) (hrows : RowsReadBack env book)
    (hbook : ∃ row ∈ book, row.address = w.address ∧ row.isSubaddress = false) (msg : Data)
    (hta : msg.ta = ownAddress env w) (t : SendTry) (addressBook : List AddressBookRow) (opened : Bool)
    (ops : List SmsOp) (st : Server)
    (hroom : EveryStep (serveStep env w) (fun st _ => Roomy st) ⟨opened, Store.empty, addressBook⟩ ops)
    (hrun : run (serveStep env w) ⟨opened, Store.empty, addressBook⟩ ops = some st) (hlast : Roomy st)
    (now : UInt64) (r : Ephemeral) (opens : Bool) (hopens : st.opened || opens) :
    ∃ sms, (sendTo env s book msg t).2 = List.replicate t.attempt.committed ⟨w.address, sms⟩ ∧
      (sms.length < 2 ^ 64 → ∀ pre fields post, WholeFields pre fields → (∀ field ∈ fields, field.sms? = none) →
        getSmsFromExtra (setSmsToExtra pre smsLayer.toUInt8 sms ++ post) = some (smsLayer.toUInt8, sms)) ∧
      Arrived env w st (onReceived env w st sms now r opens)
        (if w.watchOnly then ownAddress env w else ownAddress env s)
        (if w.watchOnly then ownAddress env s else ownAddress env w)
        { d := msg.d, t := w.label, ta := ownAddress env w, f := s.label, fa := ownAddress env s, ts := now } := by
  obtain ⟨row, hrw, hd⟩ := recipient_ownAddress hw hrows hbook
  obtain ⟨sms, hsm⟩ := @exists_smsPayload env s w hw msg.d t
  refine ⟨sms, ?_, ?_, ?_⟩
  · simp only [sendTo, hta, hrw, hd, hsm]
  · intro hz pre fields post hh ht
    exact getSmsFromExtra_setSmsToExtra hh ht hz
  · have hf : Logged env w ⟨opened, Store.empty, addressBook⟩ fun _ => [] :=
      ⟨fun _ => rfl, fun _ => rfl, by simp, by simp, fun _ _ => rfl⟩
    obtain ⟨logs, hl⟩ := run_invariant (I := fun st => ∃ logs, Logged env w st logs)
      (fun _ _ _ hst hroom hp => Logged.serveStep hst hroom hp) ⟨_, hf⟩ hroom hrun
    have hc : ¬ (!st.opened && !opens) := by
      rwa [← Bool.not_or, Bool.not_eq_true, Bool.not_eq_false']
    have hi := openMessage_smsPayload hw hsm
    have hn := verifySender_signMessage hsig hs msg.d t.scalar
    obtain ⟨c, hr, hl'⟩ := hl.receive hlast hc hi hn now r
    have ho : (onReceived env w st sms now r opens).opened := by
      -- A closed store keeps no message.
      by_contra hu
      have hem := hl'.closed (by simpa using hu) (receivedUnder env w (signMessage env s msg.d t.scalar)).1
      simp at hem
    cases ha : w.watchOnly
    · simp only [receivedUnder, ha, Bool.false_eq_true, if_false] at hl' ⊢
      exact hl.arrived hl' ho hr
    · simp only [receivedUnder, ha, if_true] at hl' ⊢
      exact hl.arrived hl' ho hr

namespace Sample

def messageTo (w : SmsWallet) (text : Blob) : Data :=
  { d := text, t := [], ta := ownAddress smsEnv w, f := (smsWallet 1).label, fa := ownAddress smsEnv (smsWallet 1), ts := 0 }

def watcher : SmsWallet := { smsWallet 2 with watchOnly := true }

def subaddress : AccountPublicAddress := ⟨9, 2 * 9⟩

def subaddressRow : AddressBookRow := ⟨subaddress, true, []⟩

def mainRow : AddressBookRow := ⟨(smsWallet 2).address, false, []⟩

def receives (w : SmsWallet) (transfers : List Transfer) : Server :=
  transfers.foldl (fun st tr => onReceived smsEnv w st tr.sms 101 ephemeral true) ⟨true, Store.empty, []⟩

end Sample

open Sample in
theorem signaturesCheck_smsEnv : SignaturesCheck smsEnv := by
  intro hash sec k
  exact decide_eq_true rfl

open Sample in
theorem valid_smsWallet (sec : SecretKey) : (smsWallet sec).Valid smsEnv := by
  refine ⟨rfl, ?_⟩
  have hr := addressCodec.unpack_pack ⟨(smsWallet sec).address, false⟩ []
  rw [List.append_nil] at hr
  exact congrArg (Option.map Prod.fst) hr

open Sample in
theorem sms_reaches_receiver_new :
    ∃ sms, (sendTo smsEnv (smsWallet 1) [mainRow] (messageTo (smsWallet 2) [7]) goesOut).2 =
        [⟨(smsWallet 2).address, sms⟩] ∧
      getSmsFromExtra (setSmsToExtra (0x01 :: List.replicate 32 5 ++ []) smsLayer.toUInt8 sms ++ []) =
        some (smsLayer.toUInt8, sms) ∧ Arrived smsEnv (smsWallet 2) ⟨true, Store.empty, []⟩
        (onReceived smsEnv (smsWallet 2) ⟨true, Store.empty, []⟩ sms 101 ephemeral true)
        (ownAddress smsEnv (smsWallet 1)) (ownAddress smsEnv (smsWallet 2))
        { d := [7], t := [2], ta := ownAddress smsEnv (smsWallet 2), f := [1], fa := ownAddress smsEnv (smsWallet 1)
          ts := 101 } := by
  have hr : RowsReadBack smsEnv [mainRow] := by
    intro row hrw
    cases List.mem_singleton.mp hrw
    exact (valid_smsWallet 2).readBack
  have ho : Roomy ⟨true, Store.empty, []⟩ := fun h => by
    show 0 + 1 < 2 ^ 64
    decide
  obtain ⟨sms, hs, hx, ha⟩ := sms_reaches_receiver smsEnv signaturesCheck_smsEnv (smsWallet 1) (smsWallet 2)
    (valid_smsWallet 1) (valid_smsWallet 2) [mainRow] hr ⟨mainRow, by simp, rfl, rfl⟩ (messageTo (smsWallet 2) [7]) rfl
    goesOut [] true [] ⟨true, Store.empty, []⟩ everyStep_nil rfl ho 101 ephemeral true rfl
  have hh : (sendTo smsEnv (smsWallet 1) [mainRow] (messageTo (smsWallet 2) [7]) goesOut).2.all
      (·.sms.length < 1000) := by decide +kernel
  rw [hs] at hh
  have hlen : sms.length < 1000 := by simpa [goesOut] using hh
  have hwh := WholeFields.cons 0x01 (List.replicate 32 5) (fun rest => readExtraField_pubKey rfl) .nil
  exact ⟨sms, hs, hx (hlen.trans (by decide)) _ _ [] hwh (by simp [ExtraField.sms?]), ha⟩

open Sample in
/-- A wallet that only watches keeps the message under its own contact, and one to a subaddress not
at all. -/
theorem sms_missing_under_sender :
    smsCount smsEnv watcher (receives watcher (sendTo smsEnv (smsWallet 1) [mainRow] (messageTo watcher [7]) goesOut).2)
        (ownAddress smsEnv (smsWallet 1)) = 0 ∧ (sendTo smsEnv (smsWallet 1) [subaddressRow]
        { messageTo (smsWallet 2) [7] with ta := smsEnv.getAccountAddressAsStr true subaddress } goesOut).2.length = 1 ∧
      (receives (smsWallet 2) (sendTo smsEnv (smsWallet 1) [subaddressRow]
        { messageTo (smsWallet 2) [7] with ta := smsEnv.getAccountAddressAsStr true subaddress } goesOut).2).data.entries =
          [] := by
  decide +kernel

end Gyro.Wallet
