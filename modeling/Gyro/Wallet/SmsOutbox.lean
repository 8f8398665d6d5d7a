import Gyro.Lib.HighWater
import Gyro.Wallet.SmsLog
import Mathlib.Data.Set.List

/-!
# The outbox of the SMS server

`send` tries the stored messages above the mark of their contact, `MESSAGES_SENDED`, which
a success moves. The mark says what was committed as long as nothing overtakes a failed
message.
-/

namespace Gyro.Wallet

open HighWater KeyValue Msgpack Runs List

/-! ## What a pass goes through -/

def storedSended (data : Store Value) (h : HashT) : UInt64 :=
  match data.get? (contactKey h messagesSended) with
  | some (.number n) => n
  | _ => 0

/-- The number of a message and the contact it is for, with its place in the log. -/
structure Queued where
  contact : HashT
  number : Nat
  entry : LogEntry

def Queued.stored (q : Queued) : Key × Value :=
  (messageKey q.contact (UInt64.ofNat q.number) q.entry.other q.entry.flag, .cipher q.entry.cipher)

def Queued.In (logs : HashT → List LogEntry) (q : Queued) : Prop :=
  1 ≤ q.number ∧ (logs q.contact)[q.number - 1]? = some q.entry

section
variable {env : SmsEnv} {w : SmsWallet} {st : Server} {logs : HashT → List LogEntry} {h h' : HashT} {n : UInt64}
  {q : Queued}

theorem Queued.In.le_length (hq : q.In logs) : q.number ≤ (logs q.contact).length := by
  have := (List.getElem?_eq_some_iff.mp hq.2).1
  omega

theorem Queued.In.mem (hq : q.In logs) : q.entry ∈ logs q.contact := List.mem_of_getElem? hq.2

theorem Logged.length_lt (hl : Logged env w st logs) (h : HashT) : (logs h).length < 2 ^ 64 :=
  hl.counters h ▸ (storedCounter st.data h).toNat_lt

theorem Logged.number_lt (hl : Logged env w st logs) (hq : q.In logs) : q.number < 2 ^ 64 :=
  hq.le_length.trans_lt (hl.length_lt _)

theorem Logged.toNat_number (hl : Logged env w st logs) (hq : q.In logs) : (UInt64.ofNat q.number).toNat = q.number :=
  UInt64.toNat_ofNat_of_lt' (hl.number_lt hq)

theorem Queued.In.stored_mem (hq : q.In logs) : q.stored ∈ logEntries q.contact 1 (logs q.contact) := by
  refine mem_logEntries.mpr ⟨_, _, hq.2, ?_⟩
  rw [Queued.stored, Nat.add_sub_cancel' hq.1]

theorem messageKey_injective {other other' : HashT} {flag flag' : Nat} {m : UInt64}
    (heq : messageKey h n other flag = messageKey h' m other' flag') : h = h' ∧ n = m := by
  have hh : h = h' := by
    apply isPrefixOf_contactMessages.mp
    rw [← heq, messageKey_eq]
    exact prefix_append _ _
  subst hh
  refine ⟨rfl, UInt64.toNat_inj.mp ?_⟩
  by_contra hn
  rcases Nat.lt_or_gt_of_ne hn with hl | hg
  · exact absurd heq (messageKey_lt (UInt64.lt_iff_toNat_lt.mpr hl)).ne
  · exact absurd heq.symm (messageKey_lt (UInt64.lt_iff_toNat_lt.mpr hg)).ne

def OnlyMessages (data : Store Value) : Prop :=
  ∀ entry ∈ data.under messagesKey, ∃ h, contactMessages h <+: entry.1

theorem mem_under_messagesKey (hl : Logged env w st logs) (ho : OnlyMessages st.data) {entry : Key × Value} :
    entry ∈ st.data.under messagesKey ↔ ∃ q : Queued, q.In logs ∧ q.stored = entry := by
  have hu : ∀ h, entry ∈ st.data.under (contactMessages h) ↔ entry ∈ logEntries h 1 (logs h) := by
    intro h
    rw [hl.messages]
  simp only [Store.under, mem_filter, decide_eq_true_eq] at hu
  constructor
  · intro hn
    obtain ⟨h, hp⟩ := ho entry hn
    obtain ⟨j, e, hg, rfl⟩ := mem_logEntries.mp ((hu h).mp ⟨mem_of_mem_filter hn, hp⟩)
    exact ⟨⟨h, 1 + j, e⟩, ⟨by simp, by simpa using hg⟩, rfl⟩
  · rintro ⟨q, hq, rfl⟩
    obtain ⟨hi, hp⟩ := (hu q.contact).mpr hq.stored_mem
    have hf : messagesKey <+: q.stored.1 := (prefix_append _ _).trans hp
    simp only [Store.under, mem_filter, decide_eq_true_eq]
    exact ⟨hi, hf⟩

theorem Logged.stored_injective (hl : Logged env w st logs) {q' : Queued} (hq : q.In logs) (hq' : q'.In logs)
    (hk : q.stored.1 = q'.stored.1) : q = q' := by
  obtain ⟨hc, hn⟩ := messageKey_injective hk
  have hu : q.number = q'.number := by
    rw [← hl.toNat_number hq, ← hl.toNat_number hq', hn]
  obtain ⟨h, j, e⟩ := q
  obtain ⟨h', j', e'⟩ := q'
  cases hc
  cases hu
  have hen : some e = some e' := hq.2.symm.trans hq'.2
  cases hen
  rfl

theorem exists_queue (hl : Logged env w st logs) (ho : OnlyMessages st.data) :
    ∃ queue : List Queued, st.data.under messagesKey = queue.map Queued.stored ∧
      (∀ q, q ∈ queue ↔ q.In logs) ∧ InOrder Queued.contact Queued.number queue := by
  have hr : st.data.under messagesKey ∈ Set.range (List.map fun q : { q : Queued // q.In logs } => q.1.stored) := by
    rw [Set.range_list_map]
    intro entry hn
    obtain ⟨q, hq, rfl⟩ := (mem_under_messagesKey hl ho).mp hn
    exact ⟨⟨q, hq⟩, rfl⟩
  obtain ⟨queue, hqu⟩ := hr
  have hu : st.data.under messagesKey = (queue.map Subtype.val).map Queued.stored := by
    rw [← hqu, map_map]
    rfl
  have hi : ∀ q ∈ queue.map Subtype.val, q.In logs := by
    intro q hq
    obtain ⟨q', -, rfl⟩ := mem_map.mp hq
    exact q'.2
  refine ⟨queue.map Subtype.val, hu, fun q => ⟨hi q, fun hq => ?_⟩, ?_⟩
  · have hme := (mem_under_messagesKey hl ho).mpr ⟨q, hq, rfl⟩
    rw [hu] at hme
    obtain ⟨q', hq', hsto⟩ := mem_map.mp hme
    rwa [← hl.stored_injective (hi q' hq') hq (congrArg Prod.fst hsto)]
  · -- The keys of the pass ascend, and those of one contact ascend with the numbers.
    have hs : (st.data.under messagesKey).Pairwise fun a b => a.1 < b.1 := st.data.sorted.filter _
    rw [hu, pairwise_map] at hs
    refine hs.imp_of_mem fun {a b} ha hb ht hc' => ?_
    by_contra hle
    have hnm : UInt64.ofNat b.number ≤ UInt64.ofNat a.number := by
      rw [UInt64.le_iff_toNat_le, hl.toNat_number (hi a ha), hl.toNat_number (hi b hb)]
      exact not_lt.mp hle
    rcases UInt64.lt_or_eq_of_le hnm with hg | heq
    · have hk : b.stored.1 < a.stored.1 := by
        rw [Queued.stored, Queued.stored, hc']
        exact messageKey_lt hg
      exact absurd ht (lt_asymm hk)
    · have hnu : a.number = b.number := by
        rw [← hl.toNat_number (hi a ha), ← hl.toNat_number (hi b hb), heq]
      have hn : some a.entry = some b.entry := by
        rw [← (hi a ha).2, ← (hi b hb).2, hc', hnu]
      have hsa : a.stored = b.stored := by
        rw [Queued.stored, Queued.stored, hc', hnu, Option.some.inj hn]
      exact absurd ht (by rw [hsa]; exact lt_irrefl _)

/-! ## A pass as a delivery -/

/-- Whether `send_to` says that a message with a known receiver did not go out. -/
def refused (env : SmsEnv) (w : SmsWallet) (addressBook : List AddressBookRow) (msg : Data) (t : SendTry) : Bool :=
  (recipient env addressBook msg.ta).any fun row =>
    (smsPayload env w row.address.viewPublicKey msg.d t).isNone || t.attempt.threw

theorem sendTo_fst {book : List AddressBookRow} {msg : Data} {t : SendTry} :
    (sendTo env w book msg t).1 = !refused env w book msg t := by
  unfold sendTo refused
  cases recipient env book msg.ta with
  | none => rfl
  | some row =>
    simp only [Option.any_some]
    cases smsPayload env w row.address.viewPublicKey msg.d t <;> simp

def Queued.attempt (env : SmsEnv) (w : SmsWallet) (book : List AddressBookRow) (tries : HashT → UInt64 → SendTry)
    (q : Queued) : Attempted :=
  let r := sendTo env w book q.entry.info (tries q.contact (UInt64.ofNat q.number))
  { contact := q.contact, number := UInt64.ofNat q.number, msg := q.entry.info, sent := r.1, transfers := r.2 }

def Queued.accepted (env : SmsEnv) (w : SmsWallet) (book : List AddressBookRow) (tries : HashT → UInt64 → SendTry)
    (q : Queued) : Bool :=
  !refused env w book q.entry.info (tries q.contact (UInt64.ofNat q.number))

def AllOutgoing (env : SmsEnv) (w : SmsWallet) (logs : HashT → List LogEntry) : Prop :=
  ∀ h, ∀ e ∈ logs h, e.flag = messageToSend ∧ e.other = contactHash env w (ownAddress env w)

def Server.marks (st : Server) (h : HashT) : Nat := (storedSended st.data h).toNat

structure SameButMarks (st st' : Server) : Prop where
  opened : st'.opened = st.opened
  addressBook : st'.addressBook = st.addressBook
  messages : ∀ pre, messagesKey <+: pre → st'.data.under pre = st.data.under pre
  counters : ∀ h, storedCounter st'.data h = storedCounter st.data h

theorem SameButMarks.refl : SameButMarks st st := ⟨rfl, rfl, fun _ _ => rfl, fun _ => rfl⟩

theorem SameButMarks.trans {st' st'' : Server} (hf : SameButMarks st st') (hs : SameButMarks st' st'') :
    SameButMarks st st'' where
  opened := hs.opened.trans hf.opened
  addressBook := hs.addressBook.trans hf.addressBook
  messages pre hp := (hs.messages pre hp).trans (hf.messages pre hp)
  counters h := (hs.counters h).trans (hf.counters h)

theorem Logged.sameButMarks {st' : Server} (hl : Logged env w st logs) (hs : SameButMarks st st') :
    Logged env w st' logs where
  messages h := (hs.messages _ (prefix_append _ _)).trans (hl.messages h)
  counters h := (congrArg UInt64.toNat (hs.counters h)).trans (hl.counters h)
  readable := hl.readable
  flags := hl.flags
  closed hc := hl.closed (hs.opened.symm.trans hc)

theorem sameButMarks_write : SameButMarks st (st.write (contactKey h messagesSended) (.number n)) := by
  unfold Server.write
  split
  next =>
    refine ⟨rfl, rfl, fun pre hp => Store.under_put_of_not fun hk => ?_, fun h' => ?_⟩
    · have hp' := hp.trans hk
      simp [messagesKey, contactKey, cons_prefix_cons] at hp'
    · have hn : contactKey h' messagesCounter ≠ contactKey h messagesSended :=
        contactKey_ne (by decide) (by decide) (by decide)
      simp only [storedCounter, Store.get?_put_of_ne hn]
  next => exact SameButMarks.refl

theorem marks_write (ho : st.opened) :
    (st.write (contactKey h messagesSended) (.number n)).marks = Function.update st.marks h n.toNat := by
  funext h'
  simp only [Server.marks, Server.write, ho, if_true, storedSended]
  by_cases heq : h' = h
  · simp [heq]
  · have hn : contactKey h' messagesSended ≠ contactKey h messagesSended := fun hk =>
      heq (contactKey_injective (by decide) (by decide) hk).1
    simp [Function.update_of_ne heq, Server.marks, storedSended, Store.get?_put_of_ne hn]

variable {other : HashT} {flag : Nat}

theorem readMessageKey_messageKey (hf : flag < 2 ^ 64) :
    readMessageKey (messageKey h n other flag) = some (h, n.toNat, other, flag) := by
  have hr := @unpackUInt_packUInt flag [] hf
  simp only [append_nil] at hr
  have hk : (messageKey h n other flag).drop messagesKey.length =
      packHash h ++ (packUInt n.toNat ++ (packHash other ++ packUInt flag)) := by
    simp [messageKey, contactMessages]
  simp [readMessageKey, hk, unpackHash_packHash, unpackUInt_packUInt n.toNat_lt, hr]

theorem passed_iff (hon : st.opened) (hn : 1 ≤ n.toNat) :
    (st.readNumber (contactKey h messagesSended)).any (n ≤ ·) = decide (n.toNat ≤ st.marks h) := by
  have ho : ¬ n.toNat ≤ (0 : UInt64).toNat := by
    show ¬ n.toNat ≤ 0
    omega
  simp only [Server.readNumber, hon, if_true, Server.marks, storedSended]
  rcases Option.eq_none_or_eq_some (st.data.get? (contactKey h messagesSended)) with hg | ⟨v, hg⟩
  · simpa [hg] using ho
  · cases v with
    | number m => simp [hg, UInt64.le_iff_toNat_le]
    | cipher c => simpa [hg] using ho

theorem sendEntries_cons {tries : HashT → UInt64 → SendTry} {rest : List (Key × Value)} (ho : st.opened)
    (ha : AllOutgoing env w logs) (hr : ∀ h, ∀ e ∈ logs h, readData env w (.cipher e.cipher) = some e.info)
    (hq : q.In logs) (hl : q.number < 2 ^ 64) : sendEntries env w tries st (q.stored :: rest) =
      if q.number ≤ st.marks q.contact then sendEntries env w tries st rest else
        let r := sendEntries env w tries (if q.accepted env w st.addressBook tries then
          st.write (contactKey q.contact messagesSended) (.number (UInt64.ofNat q.number)) else st) rest
        (r.1, q.attempt env w st.addressBook tries :: r.2) := by
  obtain ⟨hf, ht⟩ := ha _ _ hq.mem
  have hn : (UInt64.ofNat q.number).toNat = q.number := UInt64.toNat_ofNat_of_lt' hl
  have hi : q.entry.flag < 2 ^ 64 := by rw [hf]; decide
  have hs : q.entry.flag &&& messageToSend ≠ 0 := by rw [hf]; decide
  have hp : (st.readNumber (contactKey q.contact messagesSended)).any (UInt64.ofNat q.number ≤ ·) =
      decide (q.number ≤ st.marks q.contact) := by
    rw [passed_iff ho (by rw [hn]; exact hq.1), hn]
  simp only [Queued.stored, sendEntries, readMessageKey_messageKey hi, if_neg hs, ht, ne_eq,
    not_true_eq_false, if_false, UInt64.ofNat_toNat, hp, hr _ _ hq.mem, decide_eq_true_eq, sendTo_fst,
    Queued.attempt, Queued.accepted]
  rfl

theorem sendEntries_eq {tries : HashT → UInt64 → SendTry} {queue : List Queued} (ho : st.opened)
    (hal : AllOutgoing env w logs) (hd : ∀ h, ∀ e ∈ logs h, readData env w (.cipher e.cipher) = some e.info)
    (hi : ∀ q ∈ queue, q.In logs ∧ q.number < 2 ^ 64) :
    let r := sendEntries env w tries st (queue.map Queued.stored)
    let d := deliver Queued.contact Queued.number (Queued.accepted env w st.addressBook tries) st.marks queue
    SameButMarks st r.1 ∧ r.1.marks = d.1 ∧ r.2 = d.2.map (Queued.attempt env w st.addressBook tries) := by
  induction queue generalizing st with
  | nil => exact ⟨SameButMarks.refl, rfl, rfl⟩
  | cons q rest ih =>
    obtain ⟨hq, hl⟩ := hi q mem_cons_self
    have hre : ∀ q ∈ rest, q.In logs ∧ q.number < 2 ^ 64 := fun q' hq' => hi q' (mem_cons_of_mem _ hq')
    simp only [map_cons, sendEntries_cons ho hal hd hq hl, deliver]
    by_cases hle : q.number ≤ st.marks q.contact
    · simpa only [if_pos hle] using ih ho hre
    · simp only [if_neg hle, map_cons]
      by_cases hk : q.accepted env w st.addressBook tries
      · simp only [hk, if_true]
        have hs := @sameButMarks_write st q.contact (UInt64.ofNat q.number)
        obtain ⟨ht, hr, ha⟩ := ih (hs.opened.trans ho) hre
        rw [marks_write ho, UInt64.toNat_ofNat_of_lt' hl, hs.addressBook] at hr ha
        exact ⟨hs.trans ht, hr, by rw [ha]⟩
      · simp only [hk, Bool.false_eq_true, if_false]
        obtain ⟨ht, hr, ha⟩ := ih ho hre
        exact ⟨ht, hr, by rw [ha]⟩

theorem marks_storeMessage {c : DataCipher} {now : UInt64} (ho : st.opened) :
    (st.storeMessage h other flag c now).1.marks = st.marks := by
  funext h'
  rw [storeMessage_of_opened ho]
  generalize st.counter h + 1 = n
  have hs : contactKey h' messagesSended ≠ messageKey h n other flag := messageKey_ne_contactKey.symm
  have hc : contactKey h' messagesSended ≠ contactKey h messagesCounter := contactKey_ne (by decide) (by decide) (by decide)
  have ht : contactKey h' messagesSended ≠ contactKey h messagesTime := contactKey_ne (by decide) (by decide) (by decide)
  simp only [Server.marks, storedSended, Store.get?_put_of_ne ht, Store.get?_put_of_ne hc,
    Store.get?_put_of_ne hs]

theorem onlyMessages_storeMessage {c : DataCipher} {now : UInt64}
    (ho : OnlyMessages st.data) : OnlyMessages (st.storeMessage h other flag c now).1.data := by
  have hc : ∀ h' field, ¬ messagesKey <+: contactKey h' field := by
    intro h' field
    simp [messagesKey, contactKey, cons_prefix_cons]
  by_cases hon : st.opened
  · rw [storeMessage_of_opened hon]
    intro entry hn
    simp only [Store.under_put_of_not (hc _ _)] at hn
    simp only [Store.under, mem_filter, Store.mem_put] at hn
    obtain ⟨rfl | ⟨hold, -⟩, hp⟩ := hn
    · exact ⟨h, isPrefixOf_contactMessages.mpr rfl⟩
    · exact ho entry (mem_filter.mpr ⟨hold, hp⟩)
  · simpa [Server.storeMessage, Server.write, hon] using ho

end

inductive OutboxOp where
  | put (dest sms : Blob) (now : UInt64) (e : Ephemeral)
  | send (tries : HashT → UInt64 → SendTry) (opens : Bool)

/-- The messages put so far with their numbers, and the calls of `send_to`. -/
structure Outbox where
  server : Server
  outgoing : List (HashT × UInt64 × Data)
  attempts : List Attempted

def Outbox.fresh (opened : Bool) (addressBook : List AddressBookRow) : Outbox :=
  { server := { opened, data := Store.empty, addressBook }, outgoing := [], attempts := [] }

def Outbox.step (env : SmsEnv) (w : SmsWallet) (s : Outbox) : OutboxOp → Option Outbox
  | .put dest sms now e =>
    let r := smsPut env w s.server dest sms now e
    let message := (contactHash env w dest, r.2, putData env w s.server dest sms now)
    some { s with server := r.1, outgoing := if w.watchOnly then s.outgoing else s.outgoing ++ [message] }
  | .send tries opens =>
    let r := send env w s.server tries opens
    some { s with server := r.1, attempts := s.attempts ++ r.2 }

def Outbox.Pending (s : Outbox) (h : HashT) (n : UInt64) (msg : Data) : Prop :=
  (h, n, msg) ∈ s.outgoing ∧ s.server.marks h < n.toNat

/-- The wallet commits the one transaction, or throws and has committed nothing. -/
def TxAttempt.Clean (a : TxAttempt) : Prop := a.committed = if a.threw then 0 else 1

/-- A message is put into an open store, for a known receiver and with a number left. In a pass the
attempts are clean, and none overtakes an earlier one that is refused. -/
def Dependable (env : SmsEnv) (w : SmsWallet) (s : Outbox) : OutboxOp → Prop
  | .put dest _ _ _ => w.watchOnly = false → s.server.opened ∧ (recipient env s.server.addressBook dest).isSome ∧
      (storedCounter s.server.data (contactHash env w dest)).toNat + 1 < 2 ^ 64
  | .send tries _ => (∀ h n msg, s.Pending h n msg → (tries h n).attempt.Clean) ∧
      ∀ h n n' msg msg', s.Pending h n msg → s.Pending h n' msg' → n < n' →
        refused env w s.server.addressBook msg (tries h n) → refused env w s.server.addressBook msg' (tries h n')

/-- It pays the message's receiver and holds the message, encrypted to the receiver's view key. -/
def Carries (env : SmsEnv) (w : SmsWallet) (book : List AddressBookRow) (msg : Data) (t : Transfer) : Prop :=
  ∃ row ∈ book, msg.ta = env.getAccountAddressAsStr row.isSubaddress row.address ∧ t.addr = row.address ∧
    ∃ r, smsPayload env w row.address.viewPublicKey msg.d r = some t.sms

def transfersOf (attempts : List Attempted) (h : HashT) (n : UInt64) : List Transfer :=
  (attempts.filter fun a => a.contact = h ∧ a.number = n).flatMap (·.transfers)

structure NothingLost (env : SmsEnv) (w : SmsWallet) (s : Outbox) : Prop where
  /-- Messages have numbers of their own. -/
  numbered : (s.outgoing.map fun p => (p.1, p.2.1)).Nodup
  returned : ∀ a ∈ s.attempts, a.sent → ∃ t ∈ a.transfers, Carries env w s.server.addressBook a.msg t
  committed : ∀ h n msg, (h, n, msg) ∈ s.outgoing → n.toNat ≤ s.server.marks h →
    ∃ t ∈ transfersOf s.attempts h n, Carries env w s.server.addressBook msg t
  once : ∀ h n, (transfersOf s.attempts h n).length ≤ 1
  /-- What has not been committed is tried in the next run, with its text. -/
  retried : ∀ h n msg, (h, n, msg) ∈ s.outgoing → transfersOf s.attempts h n = [] → ∀ tries opens,
    (s.server.opened || opens) → ∃ a ∈ (send env w s.server tries opens).2, a.contact = h ∧ a.number = n ∧ a.msg = msg

/-- The logs hold what was put, and the marks of the contacts say what was committed. -/
structure Delivered (env : SmsEnv) (w : SmsWallet) (s : Outbox) (logs : HashT → List LogEntry) : Prop where
  logged : Logged env w s.server logs
  only : OnlyMessages s.server.data
  all : AllOutgoing env w logs
  outgoing : ∀ h n msg, (h, n, msg) ∈ s.outgoing ↔ ∃ e, Queued.In logs ⟨h, n.toNat, e⟩ ∧ e.info = msg
  numbered : (s.outgoing.map fun p => (p.1, p.2.1)).Nodup
  known : ∀ h, ∀ e ∈ logs h, (recipient env s.server.addressBook e.info.ta).isSome
  bound : ∀ h, s.server.marks h ≤ (logs h).length
  counts : ∀ h n, (transfersOf s.attempts h n).length = if 1 ≤ n.toNat ∧ n.toNat ≤ s.server.marks h then 1 else 0
  tried : ∀ a ∈ s.attempts, (a.contact, a.number, a.msg) ∈ s.outgoing
  carried : ∀ a ∈ s.attempts, ∀ t ∈ a.transfers, Carries env w s.server.addressBook a.msg t
  returned : ∀ a ∈ s.attempts, a.sent → a.transfers ≠ []

section
variable {env : SmsEnv} {w : SmsWallet} {s s' : Outbox} {logs : HashT → List LogEntry} {h : HashT} {n : UInt64}
  {book : List AddressBookRow} {msg : Data} {t : SendTry} {q : Queued} {tries : HashT → UInt64 → SendTry} {opens : Bool}

theorem Delivered.fresh {opened : Bool} : Delivered env w (Outbox.fresh opened book) fun _ => [] where
  logged := ⟨fun _ => rfl, fun _ => rfl, by simp, by simp, fun _ _ => rfl⟩
  only := by simp [OnlyMessages, Outbox.fresh, Store.empty, Store.under]
  all := by simp [AllOutgoing]
  outgoing := by simp [Outbox.fresh, Queued.In]
  numbered := nodup_nil
  known := by simp
  bound _ := Nat.le_refl 0
  counts h n := by
    have ha : (Outbox.fresh opened book).server.marks h = 0 := rfl
    have hn : ¬ (1 ≤ n.toNat ∧ n.toNat ≤ 0) := by omega
    simp only [ha, if_neg hn]
    rfl
  tried := by simp [Outbox.fresh]
  carried := by simp [Outbox.fresh]
  returned := by simp [Outbox.fresh]

theorem mem_transfersOf {attempts : List Attempted} {x : Transfer} :
    x ∈ transfersOf attempts h n ↔ ∃ a ∈ attempts, (a.contact = h ∧ a.number = n) ∧ x ∈ a.transfers := by
  simp [transfersOf, and_assoc]

theorem carries_of_mem_sendTo {x : Transfer} (hx : x ∈ (sendTo env w book msg t).2) : Carries env w book msg x := by
  unfold sendTo at hx
  cases hr : recipient env book msg.ta with
  | none => simp [hr] at hx
  | some row =>
    cases hs : smsPayload env w row.address.viewPublicKey msg.d t with
    | none => simp [hr, hs] at hx
    | some sms =>
      simp only [hr, hs, mem_replicate] at hx
      obtain ⟨-, rfl⟩ := hx
      have ht := List.find?_some hr
      exact ⟨row, List.mem_of_find?_eq_some hr, by simpa using ht, rfl, t, hs⟩

theorem length_sendTo (hk : (recipient env book msg.ta).isSome) (hc : t.attempt.Clean) :
    (sendTo env w book msg t).2.length = if refused env w book msg t then 0 else 1 := by
  obtain ⟨row, hr⟩ := Option.isSome_iff_exists.mp hk
  have hcm : t.attempt.committed = if t.attempt.threw then 0 else 1 := hc
  unfold sendTo refused
  cases hs : smsPayload env w row.address.viewPublicKey msg.d t with
  | none => simp [hr, hs]
  | some sms => simp [hr, hs, hcm]

theorem Queued.in_append {e : LogEntry} :
    q.In (Function.update logs h (logs h ++ [e])) ↔ q.In logs ∨ q = ⟨h, (logs h).length + 1, e⟩ := by
  obtain ⟨h', j, e'⟩ := q
  by_cases heq : h' = h
  · subst heq
    simp only [Queued.In, Function.update_self, Queued.mk.injEq, true_and]
    rcases lt_or_ge (j - 1) (logs h').length with hl | hg
    · rw [List.getElem?_append_left hl]
      constructor
      · exact Or.inl
      · rintro (hold | ⟨rfl, -⟩)
        · exact hold
        · omega
    · rw [List.getElem?_append_right hg, List.getElem?_eq_none hg]
      constructor
      · rintro ⟨hj, ht⟩
        obtain ⟨hlen, hn⟩ := List.getElem?_eq_some_iff.mp ht
        simp only [length_singleton] at hlen
        exact Or.inr ⟨by omega, by simpa [show j - 1 - (logs h').length = 0 by omega] using hn.symm⟩
      · rintro (⟨-, ho⟩ | ⟨rfl, rfl⟩)
        · cases ho
        · simp
  · simp [Queued.In, heq]

theorem Delivered.append {st : Server} {e : LogEntry} (hd : Delivered env w s logs)
    (hl : Logged env w st (Function.update logs h (logs h ++ [e]))) (ho : OnlyMessages st.data)
    (hb : st.addressBook = s.server.addressBook) (hr : st.marks = s.server.marks)
    (hn : e.flag = messageToSend ∧ e.other = contactHash env w (ownAddress env w))
    (hk : (recipient env s.server.addressBook e.info.ta).isSome) (hnm : n.toNat = (logs h).length + 1) :
    Delivered env w { s with server := st, outgoing := s.outgoing ++ [(h, n, e.info)] }
      (Function.update logs h (logs h ++ [e])) := by
  refine ⟨hl, ho, ?_, ?_, ?_, ?_, ?_, ?_, ?_, ?_, hd.returned⟩
  · intro h' e' he'
    rcases mem_update_append he' with hold | rfl
    exacts [hd.all _ _ hold, hn]
  · intro h' n' msg'
    simp only [mem_append, mem_singleton, hd.outgoing, Queued.in_append, Prod.mk.injEq, Queued.mk.injEq,
      ← hnm, UInt64.toNat_inj]
    constructor
    · rintro (⟨e', hi, hio⟩ | ⟨rfl, rfl, rfl⟩)
      exacts [⟨e', Or.inl hi, hio⟩, ⟨_, Or.inr ⟨rfl, rfl, rfl⟩, rfl⟩]
    · rintro ⟨e', hi | ⟨rfl, rfl, rfl⟩, rfl⟩
      exacts [Or.inl ⟨e', hi, rfl⟩, Or.inr ⟨rfl, rfl, rfl⟩]
  · rw [map_append, nodup_append]
    refine ⟨hd.numbered, by simp, ?_⟩
    rintro _ hold _ hnw rfl
    obtain ⟨⟨h', n', msg'⟩, hme, hp⟩ := mem_map.mp hold
    have hs : (h', n') = (h, n) := hp.trans (mem_singleton.mp hnw)
    cases hs
    obtain ⟨e', hi, -⟩ := (hd.outgoing _ _ _).mp hme
    have hle : n.toNat ≤ (logs h).length := hi.le_length
    omega
  · intro h' e' he'
    rw [hb]
    rcases mem_update_append he' with hold | rfl
    exacts [hd.known _ _ hold, hk]
  · intro h'
    rw [hr]
    refine (hd.bound h').trans ?_
    by_cases heq : h' = h
    · simp [heq]
    · simp [Function.update_of_ne heq]
  · simpa only [hr] using hd.counts
  · intro a ha
    exact mem_append_left _ (hd.tried a ha)
  · simpa only [hb] using hd.carried

theorem Delivered.put {dest sms : Blob} {now : UInt64} {e : Ephemeral} (hd : Delivered env w s logs)
    (hk : Dependable env w s (.put dest sms now e)) (hs : s.step env w (.put dest sms now e) = some s') :
    ∃ logs', Delivered env w s' logs' := by
  cases hs
  by_cases ha : w.watchOnly
  · refine ⟨logs, ?_⟩
    simp only [smsPut, ha, if_true]
    exact hd
  · obtain ⟨ho, hn, hf⟩ := hk (by simpa using ha)
    obtain ⟨c, hc, hr⟩ := exists_encrypt env w (putData env w s.server dest sms now) e
    have hp : smsPut env w s.server dest sms now e = s.server.storeMessage (contactHash env w dest)
        (contactHash env w (ownAddress env w)) messageToSend c now := by
      simp [smsPut, ha, hc]
    have hu := hd.logged.counters (contactHash env w dest)
    have hnm : (s.server.counter (contactHash env w dest) + 1).toNat = (logs (contactHash env w dest)).length + 1 := by
      rw [counter_eq ho, UInt64.toNat_add]
      show (_ + 1) % 2 ^ 64 = _ + 1
      omega
    have hl : messageToSend < 2 ^ 64 := by decide
    simp only [hp, ha, Bool.false_eq_true, if_false]
    have hg := hd.logged.store (e := ⟨_, contactHash env w (ownAddress env w), _, c⟩) ho now hf hr hl
    refine ⟨_, hd.append hg (onlyMessages_storeMessage hd.only) ?_ (marks_storeMessage ho) ⟨rfl, rfl⟩
      hn hnm⟩
    rw [storeMessage_of_opened ho]

theorem filter_eq_singleton {α : Type} {p : α → Bool} {a : α} {l : List α} (ha : a ∈ l) (hp : p a)
    (ho : l.Pairwise fun x y => p x → ¬ p y) : l.filter p = [a] := by
  induction l with
  | nil => cases ha
  | cons x l ih =>
    obtain ⟨hf, hr⟩ := pairwise_cons.mp ho
    rcases mem_cons.mp ha with rfl | hi
    · have hn : l.filter p = [] := filter_eq_nil_iff.mpr fun y hy => hf y hy hp
      rw [filter_cons_of_pos hp, hn]
    · rw [filter_cons_of_neg fun hx => hf a hi hx hp, ih hi hr]

theorem transfersOf_append {attempts attempts' : List Attempted} :
    transfersOf (attempts ++ attempts') h n = transfersOf attempts h n ++ transfersOf attempts' h n := by
  simp [transfersOf]

theorem transfersOf_tried {tried : List Queued} (ho : InOrder Queued.contact Queued.number tried)
    (hf : ∀ q ∈ tried, q.number < 2 ^ 64) (hq : q ∈ tried) :
    transfersOf (tried.map (Queued.attempt env w book tries)) q.contact (UInt64.ofNat q.number) =
      (q.attempt env w book tries).transfers := by
  have hc : (tried.map (Queued.attempt env w book tries)).Pairwise fun x y =>
      decide (x.contact = q.contact ∧ x.number = UInt64.ofNat q.number) →
        ¬ decide (y.contact = q.contact ∧ y.number = UInt64.ofNat q.number) := by
    rw [pairwise_map]
    refine ho.imp_of_mem fun {x y} hx hy hl hxq hyq => ?_
    obtain ⟨hxc, hn⟩ := of_decide_eq_true hxq
    obtain ⟨hyc, hyn⟩ := of_decide_eq_true hyq
    have hu : (UInt64.ofNat x.number).toNat = (UInt64.ofNat y.number).toNat :=
      congrArg UInt64.toNat (hn.trans hyn.symm)
    rw [UInt64.toNat_ofNat_of_lt' (hf x hx), UInt64.toNat_ofNat_of_lt' (hf y hy)] at hu
    have := hl (hxc.trans hyc.symm)
    omega
  have hi := filter_eq_singleton (a := q.attempt env w book tries) (mem_map_of_mem hq)
    (decide_eq_true ⟨rfl, rfl⟩) hc
  rw [transfersOf, hi, flatMap_singleton]

theorem transfersOf_untried {tried : List Queued} (hn : ∀ q ∈ tried, ¬ (q.contact = h ∧ UInt64.ofNat q.number = n)) :
    transfersOf (tried.map (Queued.attempt env w book tries)) h n = [] := by
  have hf : (tried.map (Queued.attempt env w book tries)).filter (fun a => a.contact = h ∧ a.number = n) = [] := by
    apply filter_eq_nil_iff.mpr
    intro a ha
    obtain ⟨q, hq, rfl⟩ := mem_map.mp ha
    exact fun hs => hn q hq (of_decide_eq_true hs)
  rw [transfersOf, hf, flatMap_nil]

/-- What a pass does to a server that keeps its logs: it tries what is above the marks. -/
structure Pass (env : SmsEnv) (w : SmsWallet) (s : Outbox) (logs : HashT → List LogEntry)
    (tries : HashT → UInt64 → SendTry) (opens : Bool) (queue : List Queued) : Prop where
  mem : ∀ q, q ∈ queue ↔ q.In logs
  order : InOrder Queued.contact Queued.number queue
  same : SameButMarks { s.server with opened := true } (send env w s.server tries opens).1
  marks : (send env w s.server tries opens).1.marks = (deliver Queued.contact Queued.number
    (Queued.accepted env w s.server.addressBook tries) s.server.marks queue).1
  attempts : (send env w s.server tries opens).2 =
    (queue.filter fun q => s.server.marks q.contact < q.number).map (Queued.attempt env w s.server.addressBook tries)

theorem Delivered.pass (hd : Delivered env w s logs) (hp : s.server.opened || opens) (tries : HashT → UInt64 → SendTry) :
    ∃ queue, Pass env w s logs tries opens queue := by
  obtain ⟨queue, hu, hme, ho⟩ := exists_queue hd.logged.open hd.only
  have hn : send env w s.server tries opens =
      sendEntries env w tries { s.server with opened := true } (queue.map Queued.stored) := by
    rw [← hu, send, if_neg]
    rwa [← Bool.not_or, Bool.not_eq_true, Bool.not_eq_false']
  have hi : ∀ q ∈ queue, q.In logs ∧ q.number < 2 ^ 64 := fun q hq =>
    ⟨(hme q).mp hq, hd.logged.number_lt ((hme q).mp hq)⟩
  obtain ⟨hs, hr, ha⟩ := @sendEntries_eq env w { s.server with opened := true } logs tries queue rfl hd.all
    hd.logged.readable hi
  rw [← hn] at hs hr ha
  rw [deliver_tried ho] at ha
  exact ⟨queue, hme, ho, hs, hr, ha⟩

theorem Delivered.mem_outgoing (hd : Delivered env w s logs) (hq : q.In logs) :
    (q.contact, UInt64.ofNat q.number, q.entry.info) ∈ s.outgoing := by
  refine (hd.outgoing _ _ _).mpr ⟨q.entry, ?_, rfl⟩
  rw [hd.logged.toNat_number hq]
  exact hq

theorem Delivered.pending (hd : Delivered env w s logs) (hq : q.In logs) (ha : s.server.marks q.contact < q.number) :
    s.Pending q.contact (UInt64.ofNat q.number) q.entry.info := by
  refine ⟨hd.mem_outgoing hq, ?_⟩
  rwa [hd.logged.toNat_number hq]

variable {queue : List Queued}

section
variable (hd : Delivered env w s logs)
include hd

theorem Delivered.failsUpward (ho : Dependable env w s (.send tries opens)) (hme : ∀ q ∈ queue, q.In logs) :
    FailsUpward Queued.contact Queued.number (Queued.accepted env w s.server.addressBook tries) s.server.marks queue := by
  rintro ⟨h, j, e⟩ hi ⟨h', j', e'⟩ hi' hc ha hle ho'
  obtain rfl : h = h' := hc
  have hm' : s.server.marks h < j' := lt_of_lt_of_le ha hle
  rcases Nat.lt_or_eq_of_le hle with hl | heq
  · by_contra hr
    have hn : UInt64.ofNat j < UInt64.ofNat j' := by
      rw [UInt64.lt_iff_toNat_lt]
      have hj := hd.logged.toNat_number (hme _ hi)
      have hj' := hd.logged.toNat_number (hme _ hi')
      simp only at hj hj' hl
      omega
    have hp : s.Pending h (UInt64.ofNat j) e.info := hd.pending (hme _ hi) ha
    have hp' : s.Pending h (UInt64.ofNat j') e'.info := hd.pending (hme _ hi') hm'
    have hf := ho.2 h _ _ _ _ hp hp' hn (by simpa [Queued.accepted] using hr)
    simp [Queued.accepted, hf] at ho'
  · obtain rfl : j = j' := heq
    have hen : some e = some e' := (hme _ hi).2.symm.trans (hme _ hi').2
    cases hen
    exact ho'

theorem Delivered.counts_send (hk : Dependable env w s (.send tries opens)) (hp : Pass env w s logs tries opens queue)
    (hbound : ∀ h, (send env w s.server tries opens).1.marks h ≤ (logs h).length) (h : HashT) (n : UInt64) :
    (transfersOf (s.attempts ++ (send env w s.server tries opens).2) h n).length =
      if 1 ≤ n.toNat ∧ n.toNat ≤ (send env w s.server tries opens).1.marks h then 1 else 0 := by
  have hfi : ∀ q ∈ queue, q.number < 2 ^ 64 := fun q hq => hd.logged.number_lt ((hp.mem q).mp hq)
  have hu : ∀ q ∈ queue, q.contact = h → UInt64.ofNat q.number = n → q.number = n.toNat := by
    intro q hq _ hn
    rw [← hn, UInt64.toNat_ofNat_of_lt' (hfi q hq)]
  rw [transfersOf_append, length_append, hd.counts, hp.attempts]
  have hmn : s.server.marks h ≤ (send env w s.server tries opens).1.marks h := by
    rw [hp.marks]
    exact (deliver_moved hp.order h).mono
  by_cases hl : ∃ e, Queued.In logs ⟨h, n.toNat, e⟩
  · obtain ⟨e, he⟩ := hl
    have ho : 1 ≤ n.toNat := he.1
    by_cases hs : n.toNat ≤ s.server.marks h
    · -- The message had its transaction, and the pass goes past it.
      rw [transfersOf_untried, if_pos ⟨ho, hs⟩, if_pos ⟨ho, hs.trans hmn⟩]
      · rfl
      · rintro q hq ⟨hc, hn⟩
        obtain ⟨hi, ht⟩ := mem_filter.mp hq
        have := hu q hi hc hn
        simp only [hc, decide_eq_true_eq] at ht
        omega
    · have ha : s.server.marks h < n.toNat := not_le.mp hs
      have hqu : (⟨h, n.toNat, e⟩ : Queued) ∈ queue := (hp.mem _).mpr he
      have htri : (⟨h, n.toNat, e⟩ : Queued) ∈ queue.filter fun q => s.server.marks q.contact < q.number :=
        mem_filter.mpr ⟨hqu, decide_eq_true ha⟩
      have hr := @transfersOf_tried env w s.server.addressBook _ tries _ (hp.order.filter _)
        (fun q hq => hfi q (mem_of_mem_filter hq)) htri
      have hpe := hd.pending he ha
      have hln := @length_sendTo env w s.server.addressBook e.info (tries h n) (hd.known h e he.mem)
        (by simpa using hk.1 _ _ _ hpe)
      have hf := le_deliver_iff hp.order (hd.failsUpward hk fun q hq => (hp.mem q).mp hq) hqu ha
      rw [← hp.marks] at hf
      simp only [UInt64.ofNat_toNat, Queued.attempt, Queued.accepted] at hr hf
      rw [hr, hln, if_neg fun hle => hs hle.2]
      cases hrf : refused env w s.server.addressBook e.info (tries h n) <;> simp [hf, hrf, ho]
  · -- There is no such message.
    have hno : ∀ m ≤ (logs h).length, ¬ (1 ≤ n.toNat ∧ n.toNat ≤ m) := by
      rintro m hm ⟨ho, hle⟩
      have ht : n.toNat - 1 < (logs h).length := by omega
      exact hl ⟨_, ho, List.getElem?_eq_getElem ht⟩
    rw [transfersOf_untried, if_neg (hno _ (hd.bound h)), if_neg (hno _ (hbound h))]
    · rfl
    · rintro q hq ⟨rfl, hn⟩
      have hi := mem_of_mem_filter hq
      refine hl ⟨q.entry, ?_⟩
      rw [← hu q hi rfl hn]
      exact (hp.mem q).mp hi

theorem Delivered.send (hk : Dependable env w s (.send tries opens))
    (hst : s.step env w (.send tries opens) = some s') : ∃ logs', Delivered env w s' logs' := by
  cases hst
  refine ⟨logs, ?_⟩
  by_cases hope : s.server.opened || opens
  · obtain ⟨queue, hp⟩ := hd.pass hope tries
    have hs := hp.same
    have hb : (Wallet.send env w s.server tries opens).1.addressBook = s.server.addressBook := hs.addressBook
    have hbound : ∀ h, (Wallet.send env w s.server tries opens).1.marks h ≤ (logs h).length := by
      intro h
      have ho := @deliver_moved _ _ _ Queued.contact Queued.number
        (Queued.accepted env w s.server.addressBook tries) s.server.marks queue hp.order h
      rw [← hp.marks] at ho
      rcases ho.mono.lt_or_eq with hl | heq
      · obtain ⟨q, hq, rfl, hu, -⟩ := ho.last hl
        exact hu ▸ ((hp.mem q).mp hq).le_length
      · exact heq ▸ hd.bound h
    -- The attempts of the pass are calls of `send_to` for messages that were put.
    have hae : ∀ a ∈ (Wallet.send env w s.server tries opens).2, ∃ q : Queued, q.In logs ∧
        s.server.marks q.contact < q.number ∧ a = q.attempt env w s.server.addressBook tries := by
      intro a ha
      rw [hp.attempts] at ha
      obtain ⟨q, hq, rfl⟩ := mem_map.mp ha
      obtain ⟨hin, hma⟩ := mem_filter.mp hq
      exact ⟨q, (hp.mem q).mp hin, of_decide_eq_true hma, rfl⟩
    refine ⟨?_, ?_, hd.all, hd.outgoing, hd.numbered, ?_, hbound, hd.counts_send hk hp hbound, ?_, ?_, ?_⟩
    · exact hd.logged.open.sameButMarks hs
    · exact fun entry hen => hd.only entry (hs.messages _ prefix_rfl ▸ hen)
    · simpa only [hb] using hd.known
    · intro a ha
      rcases mem_append.mp ha with hold | hn
      · exact hd.tried a hold
      · obtain ⟨q, hq, -, rfl⟩ := hae a hn
        exact hd.mem_outgoing hq
    · intro a ha t ht
      rw [hb]
      rcases mem_append.mp ha with hold | hn
      · exact hd.carried a hold t ht
      · obtain ⟨q, -, -, rfl⟩ := hae a hn
        exact carries_of_mem_sendTo ht
    · intro a ha hse
      rcases mem_append.mp ha with hold | hn
      · exact hd.returned a hold hse
      · obtain ⟨q, hq, hma, rfl⟩ := hae a hn
        have hln := length_sendTo (w := w) (hd.known _ _ hq.mem) (hk.1 _ _ _ (hd.pending hq hma))
        have hc : refused env w s.server.addressBook q.entry.info (tries q.contact (UInt64.ofNat q.number)) = false := by
          simpa [Queued.attempt, sendTo_fst] using hse
        intro hi
        simp only [Queued.attempt] at hi
        simp [hi, hc] at hln
  · have hcl : Wallet.send env w s.server tries opens = (s.server, []) := by
      rw [Wallet.send, if_pos]
      simpa using hope
    simpa [hcl] using hd

theorem Delivered.nothingLost : NothingLost env w s := by
  refine ⟨hd.numbered, ?_, ?_, ?_, ?_⟩
  · intro a ha hse
    obtain ⟨t, ht⟩ := exists_mem_of_ne_nil _ (hd.returned a ha hse)
    exact ⟨t, ht, hd.carried a ha t ht⟩
  · intro h n msg hs hle
    obtain ⟨e, hi, rfl⟩ := (hd.outgoing h n msg).mp hs
    have hc := hd.counts h n
    rw [if_pos ⟨hi.1, hle⟩] at hc
    obtain ⟨t, ht⟩ := exists_mem_of_length_pos (by omega : 0 < (transfersOf s.attempts h n).length)
    obtain ⟨a, ha, ⟨rfl, rfl⟩, hta⟩ := mem_transfersOf.mp ht
    -- The attempt was at the text of the message with this number.
    obtain ⟨e', hi', ho⟩ := (hd.outgoing _ _ _).mp (hd.tried a ha)
    have hn : some e = some e' := hi.2.symm.trans hi'.2
    cases hn
    exact ⟨t, ht, ho ▸ hd.carried a ha t hta⟩
  · intro h n
    rw [hd.counts]
    split <;> omega
  · intro h n msg hs hno tries opens hope
    obtain ⟨e, hi, rfl⟩ := (hd.outgoing h n msg).mp hs
    obtain ⟨queue, hp⟩ := hd.pass hope tries
    have hma : s.server.marks h < n.toNat := by
      by_contra hle
      have hc := hd.counts h n
      rw [hno, if_pos ⟨hi.1, not_lt.mp hle⟩] at hc
      cases hc
    refine ⟨Queued.attempt env w s.server.addressBook tries ⟨h, n.toNat, e⟩, ?_, rfl, UInt64.ofNat_toNat, rfl⟩
    rw [hp.attempts]
    exact mem_map_of_mem (mem_filter.mpr ⟨(hp.mem _).mpr hi, decide_eq_true hma⟩)

end

theorem Delivered.step {op : OutboxOp} (hd : ∃ logs, Delivered env w s logs) (ho : Dependable env w s op)
    (hs : s.step env w op = some s') : ∃ logs, Delivered env w s' logs := by
  obtain ⟨logs, hd⟩ := hd
  cases op with
  | put => exact hd.put ho hs
  | send => exact hd.send ho hs

end

/-- After every sequence of calls all of which are dependable. -/
theorem outbox_loses_nothing (env : SmsEnv) (w : SmsWallet) (opened : Bool) (addressBook : List AddressBookRow)
    (ops : List OutboxOp) (s : Outbox)
    (hok : EveryStep (Outbox.step env w) (Dependable env w) (Outbox.fresh opened addressBook) ops)
    (hrun : run (Outbox.step env w) (Outbox.fresh opened addressBook) ops = some s) : NothingLost env w s := by
  obtain ⟨logs, hd⟩ := run_invariant (I := fun s => ∃ logs, Delivered env w s logs)
    (fun _ _ _ hs ho ht => Delivered.step hs ho ht) ⟨_, Delivered.fresh⟩ hok hrun
  exact hd.nothingLost

namespace Sample

def friend : Blob := ownAddress smsEnv (smsWallet 2)

def friendHash : HashT := contactHash smsEnv (smsWallet 1) friend

def friendRow : AddressBookRow := ⟨(smsWallet 2).address, false, [2]⟩

def putFriend (text : Blob) : OutboxOp := .put friend text 100 ephemeral

def secondTry : List OutboxOp := [putFriend [5], .send (fun _ _ => throws) true, .send (fun _ _ => goesOut) true]

def overtaken : List OutboxOp :=
  [putFriend [5], putFriend [6], .send (fun _ n => if n = 1 then throws else goesOut) true,
    .send (fun _ _ => goesOut) true]

end Sample

open Sample in
theorem outbox_loses_nothing_second_try :
    ∃ s, run (Outbox.step smsEnv (smsWallet 1)) (Outbox.fresh true [friendRow]) secondTry = some s ∧
      s.attempts.map (·.sent) = [false, true] ∧ s.server.marks friendHash = 1 ∧
      NothingLost smsEnv (smsWallet 1) s := by
  refine ⟨_, rfl, by decide +kernel, by decide +kernel,
    outbox_loses_nothing smsEnv (smsWallet 1) true [friendRow] secondTry _ ?_ rfl⟩
  -- There is one message only, so none is overtaken.
  have hi : ∀ (t : SendTry) (s : Outbox) (p : HashT × UInt64 × Data), t.attempt.Clean → s.outgoing = [p] →
      Dependable smsEnv (smsWallet 1) s (.send (fun _ _ => t) true) := by
    intro t s p hc ho
    refine ⟨fun _ _ _ _ => hc, fun h n n' msg msg' hp hp' hl => ?_⟩
    have heq := mem_singleton.mp (ho ▸ hp.1)
    have heq' := mem_singleton.mp (ho ▸ hp'.1)
    cases heq.trans heq'.symm
    exact absurd hl (UInt64.lt_irrefl _)
  refine everyStep_cons (fun _ => by decide +kernel) fun s hs => ?_
  cases hs
  refine everyStep_cons (hi _ _ _ rfl rfl) fun s hs => ?_
  cases hs
  exact everyStep_cons (hi _ _ _ rfl rfl) fun _ _ => everyStep_nil

open Sample in
/-- A message to someone unknown counts as sent, and a failed one is passed over after a later
success. -/
theorem messages_lost :
    (∃ s, run (Outbox.step smsEnv (smsWallet 1)) (Outbox.fresh true []) [putFriend [5], .send (fun _ _ => goesOut) true] =
        some s ∧ s.outgoing.map (·.2.1) = [1] ∧ s.server.marks friendHash = 1 ∧ s.attempts.map (·.sent) = [true] ∧
        transfersOf s.attempts friendHash 1 = []) ∧
      ∃ s, run (Outbox.step smsEnv (smsWallet 1)) (Outbox.fresh true [friendRow]) overtaken = some s ∧
        s.outgoing.map (·.2.1) = [1, 2] ∧ s.server.marks friendHash = 2 ∧ s.attempts.map (·.sent) = [false, true] ∧
        transfersOf s.attempts friendHash 1 = [] := by
  refine ⟨⟨_, rfl, ?_⟩, _, rfl, ?_⟩ <;> decide +kernel

end Gyro.Wallet
