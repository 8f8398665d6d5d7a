import Gyro.Lib.Runs
import Gyro.Wallet.SmsServer

/-!
# The message store as a log

For each contact the store holds the messages in the order of their arrival, numbered
from 1 on, and the keys order them by number.
-/

namespace Gyro.Wallet

open KeyValue Msgpack Runs List

/-! ## The order of the keys -/

variable {h other : HashT} {n : UInt64} {flag : Nat} {env : SmsEnv} {w : SmsWallet} {st : Server}
  {logs : HashT → List LogEntry} {e : LogEntry}

section
variable {h' other' : HashT} {m : UInt64} {flag' field field' : Nat} {a : Key}

@[simp] theorem packUInt_contactPart : packUInt contactPart = [1] := rfl

@[simp] theorem packUInt_messagePart : packUInt messagePart = [2] := rfl

@[simp] theorem length_packHash : (packHash h).length = 35 := by simp [packHash, h.length_eq]

theorem packHash_injective (heq : packHash h = packHash h') : h = h' := by
  obtain ⟨bytes, hlen⟩ := h
  obtain ⟨bytes', hlen'⟩ := h'
  simpa [packHash] using heq

theorem packHash_prefix : packHash h <+: packHash h' ++ a ↔ h = h' := by
  constructor
  · intro hp
    apply packHash_injective
    exact (prefix_of_prefix_length_le hp (prefix_append _ _) (by simp)).eq_of_length (by simp)
  · rintro rfl
    exact prefix_append _ _

theorem unpackHash_packHash : unpackHash (packHash h ++ a) = some (h, a) := by
  obtain ⟨bytes, hlen⟩ := h
  simp [unpackHash, packHash, ← hlen]

theorem isPrefixOf_contactMessages : contactMessages h <+: messageKey h' n other flag ↔ h = h' := by
  simp only [contactMessages, messageKey, append_assoc, prefix_append_right_inj, packHash_prefix]

theorem not_isPrefixOf_contactMessages : ¬ contactMessages h <+: contactKey h' field := by
  simp [contactMessages, messagesKey, contactKey, cons_prefix_cons]

theorem messageKey_ne_contactKey : messageKey h n other flag ≠ contactKey h' field := by
  simp [messageKey, contactMessages, messagesKey, contactKey]

theorem contactKey_injective (hf : field < 2 ^ 64) (hf' : field' < 2 ^ 64)
    (heq : contactKey h field = contactKey h' field') : h = h' ∧ field = field' := by
  have hp : packHash h ++ packUInt field = packHash h' ++ packUInt field' := by
    simpa [contactKey] using heq
  have hh := packHash_prefix.mp (hp ▸ prefix_append (packHash h) (packUInt field))
  subst hh
  have hc := append_cancel_left hp
  exact ⟨rfl, packUInt_prefix hf hf' (t := []) (by simp [hc])⟩

theorem contactKey_ne (hf : field < 2 ^ 64) (hf' : field' < 2 ^ 64) (hn : field ≠ field') :
    contactKey h field ≠ contactKey h' field' := fun heq => hn (contactKey_injective hf hf' heq).2

theorem messageKey_eq :
    messageKey h n other flag = contactMessages h ++ (packUInt n.toNat ++ (packHash other ++ packUInt flag)) := by
  simp [messageKey]

theorem messageKey_lt (hl : n < m) : messageKey h n other flag < messageKey h m other' flag' := by
  rw [messageKey_eq, messageKey_eq, Store.append_lt_append]
  exact packUInt_lt m.toNat_lt (UInt64.lt_iff_toNat_lt.mp hl)

theorem numberKey_le_messageKey : contactMessages h ++ packUInt n.toNat ≤ messageKey h m other flag ↔ n ≤ m := by
  rw [messageKey_eq]
  constructor
  · intro hle
    by_contra hg
    have hl : m.toNat < n.toNat := UInt64.lt_iff_toNat_lt.mp (UInt64.not_le.mp hg)
    refine hle.not_gt (Store.append_lt_append.mpr ?_)
    simpa using packUInt_lt (s := packHash other ++ packUInt flag) (t := []) n.toNat_lt hl
  · intro hle
    rw [← not_lt, Store.append_lt_append, not_lt]
    rcases UInt64.lt_or_eq_of_le hle with hl | rfl
    · have := packUInt_lt (s := []) (t := packHash other ++ packUInt flag) m.toNat_lt (UInt64.lt_iff_toNat_lt.mp hl)
      exact (by simpa using this : _ < _).le
    · exact Store.le_append _ _

end

/-! ## The log of a contact -/

structure LogEntry where
  info : Data
  other : HashT
  flag : Nat
  cipher : DataCipher

def logEntries (h : HashT) : Nat → List LogEntry → List (Key × Value)
  | _, [] => []
  | n, e :: es => (messageKey h (UInt64.ofNat n) e.other e.flag, .cipher e.cipher) :: logEntries h (n + 1) es

def storedCounter (data : Store Value) (h : HashT) : UInt64 :=
  match data.get? (contactKey h messagesCounter) with
  | some (.number n) => n
  | _ => 0

/-- The store holds these logs, each message readable with the wallet's key. -/
structure Logged (env : SmsEnv) (w : SmsWallet) (st : Server) (logs : HashT → List LogEntry) : Prop where
  messages : ∀ h, st.data.under (contactMessages h) = logEntries h 1 (logs h)
  counters : ∀ h, (storedCounter st.data h).toNat = (logs h).length
  readable : ∀ h, ∀ e ∈ logs h, readData env w (.cipher e.cipher) = some e.info
  flags : ∀ h, ∀ e ∈ logs h, e.flag < 2 ^ 64
  closed : st.opened = false → ∀ h, logs h = []

section
variable {es : List LogEntry} {i : Nat}

theorem logEntries_concat : logEntries h i (es ++ [e]) =
      logEntries h i es ++ [(messageKey h (UInt64.ofNat (i + es.length)) e.other e.flag, .cipher e.cipher)] := by
  induction es generalizing i with
  | nil => rfl
  | cons e' es ih =>
    have hn : i + 1 + es.length = i + (es.length + 1) := by omega
    simp only [cons_append, logEntries, ih, length_cons, hn]

theorem mem_logEntries {entry : Key × Value} : entry ∈ logEntries h i es ↔ ∃ (j : Nat) (e : LogEntry), es[j]? = some e ∧
      entry = (messageKey h (UInt64.ofNat (i + j)) e.other e.flag, .cipher e.cipher) := by
  induction es generalizing i with
  | nil => simp [logEntries]
  | cons e es ih =>
    rw [logEntries, mem_cons, ih]
    constructor
    · rintro (rfl | ⟨j, e', hj, rfl⟩)
      · exact ⟨0, e, rfl, rfl⟩
      · exact ⟨j + 1, e', hj, by rw [Nat.add_right_comm, Nat.add_assoc]⟩
    · rintro ⟨j, e', hj, rfl⟩
      cases j with
      | zero =>
        cases hj
        exact Or.inl rfl
      | succ j => exact Or.inr ⟨j, e', hj, by rw [Nat.add_right_comm, Nat.add_assoc]⟩

theorem filter_logEntries (hf : i + es.length ≤ 2 ^ 64) :
    (logEntries h i es).filter (contactMessages h ++ packUInt n.toNat ≤ ·.1) =
      logEntries h (max i n.toNat) (es.drop (n.toNat - i)) := by
  induction es generalizing i with
  | nil => simp [logEntries]
  | cons e es ih =>
    have hi : i < 2 ^ 64 := by simp only [length_cons] at hf; omega
    have ht := ih (i := i + 1) (by simp only [length_cons] at hf; omega)
    have hn : n ≤ UInt64.ofNat i ↔ n.toNat ≤ i := by
      rw [UInt64.le_iff_toNat_le, UInt64.toNat_ofNat_of_lt' hi]
    simp only [logEntries, filter_cons, numberKey_le_messageKey, hn, ht]
    by_cases hle : n.toNat ≤ i
    · have hd : n.toNat - i = 0 := by omega
      have hd' : n.toNat - (i + 1) = 0 := by omega
      simp [hle, hd, hd', logEntries, show max (i + 1) n.toNat = i + 1 by omega]
    · have hd : n.toNat - i = (n.toNat - (i + 1)) + 1 := by omega
      simp [hle, hd, show max (i + 1) n.toNat = max i n.toNat by omega]

theorem counter_eq (ho : st.opened) (h : HashT) : st.counter h = storedCounter st.data h := by
  simp only [Server.counter, Server.readNumber, ho, if_true, storedCounter]
  cases st.data.get? (contactKey h messagesCounter) with
  | none => rfl
  | some v => cases v <;> rfl


theorem storeMessage_of_opened {c : DataCipher} {now : UInt64} (ho : st.opened) :
    (st.storeMessage h other flag c now).1 =
      { st with data := ((st.data.put (messageKey h (st.counter h + 1) other flag) (.cipher c)).put
        (contactKey h messagesCounter) (.number (st.counter h + 1))).put (contactKey h messagesTime) (.number now) } := by
  simp [Server.storeMessage, Server.write, ho]

theorem storedCounter_storeMessage {c : DataCipher} {now : UInt64} (ho : st.opened) (h' : HashT) :
    storedCounter (st.storeMessage h other flag c now).1.data h' =
      if h' = h then storedCounter st.data h + 1 else storedCounter st.data h' := by
  have ht : contactKey h' messagesCounter ≠ contactKey h messagesTime := contactKey_ne (by decide) (by decide) (by decide)
  rw [storeMessage_of_opened ho, counter_eq ho]
  generalize storedCounter st.data h + 1 = n
  have hme : contactKey h' messagesCounter ≠ messageKey h n other flag := messageKey_ne_contactKey.symm
  simp only [storedCounter, Store.get?_put_of_ne ht]
  by_cases heq : h' = h
  · simp [heq]
  · have hc : contactKey h' messagesCounter ≠ contactKey h messagesCounter := fun hk =>
      heq (contactKey_injective (by decide) (by decide) hk).1
    simp [heq, Store.get?_put_of_ne hc, Store.get?_put_of_ne hme]

theorem mem_update_append {e' : LogEntry} {h' : HashT} (he' : e' ∈ Function.update logs h (logs h ++ [e]) h') :
    e' ∈ logs h' ∨ e' = e := by
  by_cases heq : h' = h
  · subst heq
    simpa using he'
  · rw [Function.update_of_ne heq] at he'
    exact Or.inl he'

theorem Logged.store (hl : Logged env w st logs) (ho : st.opened) (now : UInt64)
    (hi : (storedCounter st.data h).toNat + 1 < 2 ^ 64) (hr : readData env w (.cipher e.cipher) = some e.info)
    (hf : e.flag < 2 ^ 64) :
    Logged env w (st.storeMessage h e.other e.flag e.cipher now).1 (Function.update logs h (logs h ++ [e])) := by
  have hco := hl.counters h
  have hn : st.counter h + 1 = UInt64.ofNat (1 + (logs h).length) := by
    apply UInt64.toNat_inj.mp
    rw [counter_eq ho, UInt64.toNat_add, UInt64.toNat_ofNat_of_lt' (by show _ < 2 ^ 64; omega)]
    show (_ + 1) % 2 ^ 64 = _
    omega
  constructor
  · intro h'
    rw [storeMessage_of_opened ho]
    simp only [Store.under_put_of_not not_isPrefixOf_contactMessages]
    by_cases heq : h' = h
    · subst heq
      rw [Function.update_self, logEntries_concat, ← hl.messages, ← hn]
      apply Store.under_put_last (isPrefixOf_contactMessages.mpr rfl)
      intro entry hen
      rw [hl.messages] at hen
      obtain ⟨j, e', hg, rfl⟩ := mem_logEntries.mp hen
      have hj := (List.getElem?_eq_some_iff.mp hg).1
      apply messageKey_lt
      rw [hn, UInt64.lt_iff_toNat_lt, UInt64.toNat_ofNat_of_lt' (by show _ < 2 ^ 64; omega),
        UInt64.toNat_ofNat_of_lt' (by show _ < 2 ^ 64; omega)]
      omega
    · rw [Function.update_of_ne heq, Store.under_put_of_not (by rwa [isPrefixOf_contactMessages]), hl.messages]
  · intro h'
    rw [storedCounter_storeMessage ho]
    by_cases heq : h' = h
    · subst heq
      rw [if_pos rfl, Function.update_self, UInt64.toNat_add, length_append]
      show (_ + 1) % 2 ^ 64 = _ + 1
      omega
    · rw [if_neg heq, Function.update_of_ne heq, hl.counters h']
  · intro h' e' he'
    rcases mem_update_append he' with hold | rfl
    exacts [hl.readable _ _ hold, hr]
  · intro h' e' he'
    rcases mem_update_append he' with hold | rfl
    exacts [hl.flags _ _ hold, hf]
  · intro hc
    simp [storeMessage_of_opened ho, ho] at hc

theorem Logged.find_eq (hl : Logged env w st logs) (hn : 1 ≤ n) :
    st.find h n = logEntries h n.toNat ((logs h).drop (n.toNat - 1)) := by
  unfold Server.find
  by_cases ho : st.opened
  · have hln : (logs h).length < 2 ^ 64 := hl.counters h ▸ (storedCounter st.data h).toNat_lt
    have hu : 1 ≤ n.toNat := UInt64.le_iff_toNat_le.mp hn
    have hs : st.data.scan (contactMessages h) (contactMessages h ++ packUInt n.toNat) =
        logEntries h n.toNat ((logs h).drop (n.toNat - 1)) := by
      rw [Store.scan_eq (prefix_append _ _), hl.messages, filter_logEntries (by omega),
        show max 1 n.toNat = n.toNat by omega]
    rw [if_pos ho, hs]
    cases (logs h).drop (n.toNat - 1) with
    | nil => rfl
    | cons e es =>
      have hf : contactMessages h ++ packUInt n.toNat <+: messageKey h n e.other e.flag := by
        rw [messageKey_eq, prefix_append_right_inj]
        exact prefix_append _ _
      simp [logEntries, hf]
  · simp [ho, hl.closed (by simpa using ho), logEntries]

def arrayItem (env : SmsEnv) (w : SmsWallet) (info : Data) : SmsItem :=
  { sms := info.d, sended := info.fa = ownAddress env w, ts := info.ts }

def LogEntry.getItem (e : LogEntry) : SmsItem :=
  { sms := e.info.d, sended := if e.flag = messageReceived then false else true, ts := e.info.ts }

theorem smsItems_logEntries (hr : ∀ e ∈ es, readData env w (.cipher e.cipher) = some e.info) (c : Nat) :
    smsItems env w ((logEntries h i es).take c) = (es.take c).map fun e => arrayItem env w e.info := by
  induction es generalizing i c with
  | nil => simp [logEntries, smsItems]
  | cons e es ih =>
    cases c with
    | zero => rfl
    | succ c =>
      have ht := ih (i := i + 1) (fun e' he' => hr e' (mem_cons_of_mem _ he')) c
      simp [logEntries, smsItems, hr e (by simp), ht, arrayItem]

theorem readKey_messageKey (hf : flag < 2 ^ 64) :
    readKey h (messageKey h n other flag) = some (n.toNat, other, flag) := by
  have hr := @unpackUInt_packUInt flag [] hf
  simp only [append_nil] at hr
  simp [readKey, messageKey_eq, unpackUInt_packUInt n.toNat_lt, unpackHash_packHash, hr]

theorem Logged.smsArray_eq (hl : Logged env w st logs) (a : Blob) {c : UInt64} (hn : 1 ≤ n) : smsArray env w st a n c =
      (((logs (contactHash env w a)).drop (n.toNat - 1)).take c.toNat).map fun e => arrayItem env w e.info := by
  rw [smsArray, hl.find_eq hn]
  apply smsItems_logEntries
  intro e he
  exact hl.readable _ e (mem_of_mem_drop he)

theorem Logged.smsGet_eq (hl : Logged env w st logs) (a : Blob) (hn : 1 ≤ n) :
    smsGet env w st a n = ((logs (contactHash env w a))[n.toNat - 1]?).map LogEntry.getItem := by
  rw [smsGet, hl.find_eq hn, ← List.head?_drop]
  cases hd : (logs (contactHash env w a)).drop (n.toNat - 1) with
  | nil => rfl
  | cons e es =>
    have he : e ∈ logs (contactHash env w a) := mem_of_mem_drop (hd ▸ mem_cons_self)
    simp [logEntries, readKey_messageKey (hl.flags _ e he), hl.readable _ e he, LogEntry.getItem]

def storedNumbers (data : Store Value) (h : HashT) : List Nat :=
  (data.under (contactMessages h)).filterMap fun entry => (readKey h entry.1).map (·.1)

theorem numbers_logEntries (hf : ∀ e ∈ es, e.flag < 2 ^ 64) (hfi : i + es.length ≤ 2 ^ 64) :
    (logEntries h i es).filterMap (fun entry => (readKey h entry.1).map (·.1)) = List.range' i es.length := by
  induction es generalizing i with
  | nil => rfl
  | cons e es ih =>
    simp only [length_cons] at hfi
    have ht := ih (i := i + 1) (fun e' he' => hf e' (mem_cons_of_mem _ he')) (by omega)
    have hi : (UInt64.ofNat i).toNat = i := UInt64.toNat_ofNat_of_lt' (by show i < 2 ^ 64; omega)
    simp [logEntries, readKey_messageKey (hf e (by simp)), ht, hi, List.range'_succ]

theorem Logged.storedNumbers_eq (hl : Logged env w st logs) (h : HashT) :
    storedNumbers st.data h = List.range' 1 (storedCounter st.data h).toNat := by
  have hf := (storedCounter st.data h).toNat_lt
  rw [hl.counters] at hf ⊢
  rw [storedNumbers, hl.messages]
  exact numbers_logEntries (hl.flags h) (by omega)

end

inductive SmsOp where
  | put (dest sms : Blob) (now : UInt64) (e : Ephemeral)
  | receive (payload : Blob) (now : UInt64) (e : Ephemeral) (opens : Bool)

def serve (env : SmsEnv) (w : SmsWallet) (st : Server) : SmsOp → Server
  | .put dest sms now e => (smsPut env w st dest sms now e).1
  | .receive payload now e opens => onReceived env w st payload now e opens

/-- The message a call of a wallet that can spend puts into the store, and for which contact. -/
def arrival (env : SmsEnv) (w : SmsWallet) (st : Server) : SmsOp → Option (HashT × Data)
  | .put dest sms now _ =>
    if st.opened then some (contactHash env w dest, putData env w st dest sms now) else none
  | .receive payload now _ opens =>
    if !st.opened && !opens then none
    else (openMessage env w payload).bind fun s => (verifySender env s).map fun _ =>
      (contactHash env w s.a, receivedData env w s now)

structure Session where
  server : Server
  arrived : HashT → List Data

def Session.fresh (opened : Bool) (addressBook : List AddressBookRow) : Session :=
  { server := { opened, data := Store.empty, addressBook }, arrived := fun _ => [] }

def Session.arrive (s : Session) : Option (HashT × Data) → HashT → List Data
  | some (h, m) => Function.update s.arrived h (s.arrived h ++ [m])
  | none => s.arrived

def Session.step (env : SmsEnv) (w : SmsWallet) (s : Session) (op : SmsOp) : Option Session :=
  some { server := serve env w s.server op, arrived := s.arrive (arrival env w s.server op) }

def opened (env : SmsEnv) (w : SmsWallet) : SmsOp → Option DataSign
  | .put .. => none
  | .receive payload _ _ _ => openMessage env w payload

/-- A message received does not name the wallet itself as its sender; and there is a number left. -/
def Distinguishable (env : SmsEnv) (w : SmsWallet) (s : Session) (op : SmsOp) : Prop :=
  (∀ m ∈ arrival env w s.server op, (storedCounter s.server.data m.1).toNat + 1 < 2 ^ 64) ∧
    ∀ sign ∈ opened env w op, (verifySender env sign).isSome → sign.a ≠ ownAddress env w

instance (env : SmsEnv) (w : SmsWallet) (s : Session) (op : SmsOp) : Decidable (Distinguishable env w s op) :=
  inferInstanceAs (Decidable (_ ∧ _))

/-- The store is the log of what arrived, and both readers can tell what was sent. -/
structure KeepsLog (env : SmsEnv) (w : SmsWallet) (s : Session) (logs : HashT → List LogEntry) : Prop where
  logged : Logged env w s.server logs
  arrived : ∀ h, s.arrived h = (logs h).map (·.info)
  agree : ∀ h, ∀ e ∈ logs h, arrayItem env w e.info = e.getItem

section
variable {s s' : Session}

theorem KeepsLog.fresh {opened : Bool} {addressBook : List AddressBookRow} :
    KeepsLog env w (Session.fresh opened addressBook) fun _ => [] := by
  refine ⟨⟨fun _ => rfl, fun _ => rfl, ?_, ?_, fun _ _ => rfl⟩, fun _ => rfl, ?_⟩ <;> simp

theorem Distinguishable.fits {op : SmsOp} {m : Data} (ho : Distinguishable env w s op)
    (ha : arrival env w s.server op = some (h, m)) : (storedCounter s.server.data h).toNat + 1 < 2 ^ 64 :=
  ho.1 (h, m) ha

variable {r : Ephemeral}

theorem readData_encrypt {info : Data} {c : DataCipher}
    (hc : env.suite.encrypt (pub env w) (env.data.pack info) r = some c) : readData env w (.cipher c) = some info := by
  have hu := env.data.unpack_pack info []
  simp only [append_nil] at hu
  simp [readData, CipherSuite.decrypt_encrypt hc, hu]


theorem Logged.open (hl : Logged env w st logs) : Logged env w { st with opened := true } logs where
  messages := hl.messages
  counters := hl.counters
  readable := hl.readable
  flags := hl.flags
  closed := by simp

variable {info : AddressParseInfo}

theorem Logged.addRow {label : Blob} (hl : Logged env w st logs) :
    Logged env w (addAddressBookRow env st info label) logs where
  messages := hl.messages
  counters := hl.counters
  readable := hl.readable
  flags := hl.flags
  closed := hl.closed

theorem KeepsLog.append (hk : KeepsLog env w s logs)
    (hl : Logged env w s'.server (Function.update logs h (logs h ++ [e])))
    (ha : s'.arrived = s.arrive (some (h, e.info))) (hg : arrayItem env w e.info = e.getItem) :
    KeepsLog env w s' (Function.update logs h (logs h ++ [e])) := by
  refine ⟨hl, fun h' => ?_, fun h' e' he' => ?_⟩
  · rw [ha]
    by_cases heq : h' = h
    · subst heq
      simp [Session.arrive, hk.arrived]
    · simp [Session.arrive, Function.update_of_ne heq, hk.arrived]
  · rcases mem_update_append he' with hold | rfl
    exacts [hk.agree _ _ hold, hg]

theorem exists_encrypt (env : SmsEnv) (w : SmsWallet) (info : Data) (r : Ephemeral) :
    ∃ c, env.suite.encrypt (pub env w) (env.data.pack info) r = some c ∧ readData env w (.cipher c) = some info := by
  obtain ⟨c, hc⟩ := Option.isSome_iff_exists.mp (CipherSuite.isSome_encrypt (env.data.pack info) r)
  exact ⟨c, hc, readData_encrypt hc⟩

theorem KeepsLog.put {dest sms : Blob} {now : UInt64} {r : Ephemeral} (hwa : w.watchOnly = false)
    (hk : KeepsLog env w s logs) (hok : Distinguishable env w s (.put dest sms now r))
    (hs : s.step env w (.put dest sms now r) = some s') : ∃ logs', KeepsLog env w s' logs' := by
  cases hs
  obtain ⟨c, hc, hr⟩ := exists_encrypt env w (putData env w s.server dest sms now) r
  have hse : serve env w s.server (.put dest sms now r) =
      (s.server.storeMessage (contactHash env w dest) (contactHash env w (ownAddress env w)) messageToSend c now).1 := by
    simp [serve, smsPut, hwa, hc]
  rw [hse]
  by_cases ho : s.server.opened
  · have ha : arrival env w s.server (.put dest sms now r) =
        some (contactHash env w dest, putData env w s.server dest sms now) := by
      simp [arrival, ho]
    have hf : messageToSend < 2 ^ 64 := by decide
    have hi := hok.fits ha
    refine ⟨_, hk.append (hk.logged.store (e := ⟨_, _, _, c⟩) ho now hi hr hf) ?_ ?_⟩
    · exact congrArg s.arrive ha
    · simp [arrayItem, LogEntry.getItem, messageReceived]
  · refine ⟨logs, ?_⟩
    have hn : arrival env w s.server (.put dest sms now r) = none := by simp [arrival, ho]
    simp only [hn, Session.arrive]
    simpa [Server.storeMessage, Server.write, ho] using hk

def receivedUnder (env : SmsEnv) (w : SmsWallet) (sign : DataSign) : HashT × HashT :=
  if w.watchOnly then (contactHash env w (ownAddress env w), contactHash env w sign.a)
  else (contactHash env w sign.a, contactHash env w (ownAddress env w))

theorem Logged.onReceived {payload : Blob} {now : UInt64} {opens : Bool} {sign : DataSign} {c : DataCipher} (ho : ¬ (!st.opened && !opens))
    (hs : openMessage env w payload = some sign) (hi : verifySender env sign = some info)
    (hc : env.suite.encrypt (pub env w) (env.data.pack (receivedData env w sign now)) r = some c)
    (hso : Logged env w ({ st with opened := true }.storeMessage (receivedUnder env w sign).1
      (receivedUnder env w sign).2 messageReceived c now).1 logs) :
    Logged env w (onReceived env w st payload now r opens) logs := by
  have hr : Logged env w (if !w.watchOnly then
      { st with opened := true }.storeMessage (contactHash env w sign.a) (contactHash env w (ownAddress env w))
        messageReceived c now else
      { st with opened := true }.storeMessage (contactHash env w (ownAddress env w)) (contactHash env w sign.a)
        messageReceived c now).1 logs := by
    cases ha : w.watchOnly <;> simpa [receivedUnder, ha] using hso
  unfold Wallet.onReceived
  simp only [if_neg ho, hs, hi, hc]
  by_cases hk : st.addressBook.any (·.address = info.address)
  · rwa [if_pos hk]
  · rw [if_neg hk]
    exact hr.addRow

theorem KeepsLog.receive {payload : Blob} {now : UInt64} {opens : Bool} (hwa : w.watchOnly = false)
    (hk : KeepsLog env w s logs) (ho : Distinguishable env w s (.receive payload now r opens))
    (ht : s.step env w (.receive payload now r opens) = some s') : ∃ logs', KeepsLog env w s' logs' := by
  cases ht
  by_cases hl : !s.server.opened && !opens
  · refine ⟨logs, ?_⟩
    have hn : arrival env w s.server (.receive payload now r opens) = none := by simp only [arrival, hl, if_true]
    have hse : serve env w s.server (.receive payload now r opens) = s.server := by
      simp only [serve, onReceived, hl, if_true]
    simpa only [hn, hse, Session.arrive] using hk
  · -- Whatever is refused from here on, the store has been opened.
    have hr : serve env w s.server (.receive payload now r opens) = { s.server with opened := true } →
        arrival env w s.server (.receive payload now r opens) = none → ∃ logs',
        KeepsLog env w ⟨serve env w s.server (.receive payload now r opens),
          s.arrive (arrival env w s.server (.receive payload now r opens))⟩ logs' := by
      intro hse hn
      rw [hse, hn]
      exact ⟨logs, hk.logged.open, hk.arrived, hk.agree⟩
    cases hs : openMessage env w payload with
    | none => apply hr <;> simp [serve, onReceived, arrival, hl, hs]
    | some sign =>
      cases hi : verifySender env sign with
      | none => apply hr <;> simp [serve, onReceived, arrival, hl, hs, hi]
      | some info =>
        obtain ⟨c, hc, hre⟩ := exists_encrypt env w (receivedData env w sign now) r
        have ha : arrival env w s.server (.receive payload now r opens) =
            some (contactHash env w sign.a, receivedData env w sign now) := by
          simp [arrival, hl, hs, hi]
        have hf : messageReceived < 2 ^ 64 := by decide
        have hfi := ho.fits ha
        have hso := hk.logged.open.store (e := ⟨_, contactHash env w (ownAddress env w), _, c⟩) rfl now
          hfi hre hf
        have hu : receivedUnder env w sign = (contactHash env w sign.a, contactHash env w (ownAddress env w)) := by
          simp [receivedUnder, hwa]
        refine ⟨_, hk.append (Logged.onReceived hl hs hi hc (by rw [hu]; exact hso)) ?_ ?_⟩
        · exact congrArg s.arrive ha
        · have hot := ho.2 sign hs (by simp [hi])
          simp [arrayItem, LogEntry.getItem, messageReceived, hot]

theorem KeepsLog.step {op : SmsOp} (ha : w.watchOnly = false) (hk : ∃ logs, KeepsLog env w s logs)
    (ho : Distinguishable env w s op) (hs : s.step env w op = some s') : ∃ logs, KeepsLog env w s' logs := by
  obtain ⟨logs, hk⟩ := hk
  cases op with
  | put dest sms now r => exact hk.put ha ho hs
  | receive payload now r opens => exact hk.receive ha ho hs

end

/-- A gapless numbered log of what arrived for the contact, on which the two readers agree. -/
structure Gapless (env : SmsEnv) (w : SmsWallet) (s : Session) (contact : Blob) : Prop where
  numbers : storedNumbers s.server.data (contactHash env w contact) =
    List.range' 1 (storedCounter s.server.data (contactHash env w contact)).toNat
  records : (s.server.data.under (contactMessages (contactHash env w contact))).filterMap
    (fun entry => readData env w entry.2) = s.arrived (contactHash env w contact)
  array : ∀ n c : UInt64, 1 ≤ n → smsArray env w s.server contact n c =
    (((s.arrived (contactHash env w contact)).drop (n.toNat - 1)).take c.toNat).map (arrayItem env w)
  get : ∀ n : UInt64, 1 ≤ n → n ≤ smsCount env w s.server contact →
    (smsGet env w s.server contact n).isSome ∧
      smsGet env w s.server contact n = (smsArray env w s.server contact n 1).head?

theorem KeepsLog.gapless {env : SmsEnv} {w : SmsWallet} {s : Session} {logs : HashT → List LogEntry}
    (hk : KeepsLog env w s logs) (contact : Blob) : Gapless env w s contact := by
  have hc : ∀ h, ∀ es : List LogEntry, (∀ e ∈ es, readData env w (.cipher e.cipher) = some e.info) → ∀ i,
      (logEntries h i es).filterMap (fun entry => readData env w entry.2) = es.map (·.info) := by
    intro h es
    induction es with
    | nil => exact fun _ _ => rfl
    | cons e es ih =>
      intro hr i
      simp [logEntries, hr e (by simp), ih (fun e' he' => hr e' (mem_cons_of_mem _ he')) (i + 1)]
  constructor
  · exact hk.logged.storedNumbers_eq _
  · rw [hk.logged.messages, hk.arrived]
    exact hc _ _ (hk.logged.readable _) 1
  · intro n c hn
    rw [hk.logged.smsArray_eq contact hn, hk.arrived, ← map_drop, ← map_take, map_map]
    rfl
  · intro n hn hle
    have hco := hk.logged.counters (contactHash env w contact)
    have hbound : (smsCount env w s.server contact).toNat ≤ (logs (contactHash env w contact)).length := by
      by_cases ho : s.server.opened
      · rw [smsCount, counter_eq ho, hco]
      · simp [smsCount, Server.counter, Server.readNumber, ho]
    have hu := UInt64.le_iff_toNat_le.mp hn
    have hl : n.toNat - 1 < (logs (contactHash env w contact)).length := by
      have := UInt64.le_iff_toNat_le.mp hle
      change 1 ≤ n.toNat at hu
      omega
    rw [hk.logged.smsGet_eq contact hn, hk.logged.smsArray_eq contact hn, List.getElem?_eq_getElem hl,
      drop_eq_getElem_cons hl]
    exact ⟨rfl, congrArg some (hk.agree _ _ (getElem_mem hl)).symm⟩

/-- After every sequence of calls none of which receives a message from the wallet itself. -/
theorem sms_log_gapless (env : SmsEnv) (w : SmsWallet) (hwatch : w.watchOnly = false) (opened : Bool)
    (addressBook : List AddressBookRow) (ops : List SmsOp) (s : Session)
    (hok : EveryStep (Session.step env w) (Distinguishable env w) (Session.fresh opened addressBook) ops)
    (hrun : run (Session.step env w) (Session.fresh opened addressBook) ops = some s) (contact : Blob) :
    Gapless env w s contact := by
  obtain ⟨logs, hk⟩ := run_invariant (I := fun s => ∃ logs, KeepsLog env w s logs)
    (fun _ _ _ hs ho ht => KeepsLog.step hwatch hs ho ht) ⟨_, KeepsLog.fresh⟩ hok hrun
  exact hk.gapless contact

namespace Sample

def payloadTo (dest sender : SecretKey) (text : Blob) : Blob :=
  (smsPayload smsEnv (smsWallet sender) dest text goesOut).getD []

def exchange : List SmsOp :=
  [.put (ownAddress smsEnv (smsWallet 2)) [5] 100 ephemeral, .receive (payloadTo 1 2 [6]) 101 ephemeral true]

def toItself : SmsOp := .receive (payloadTo 1 1 [6]) 101 ephemeral true

end Sample

open Sample in
theorem sms_log_gapless_exchange : (smsWallet 1).watchOnly = false ∧
      ∃ s, run (Session.step smsEnv (smsWallet 1)) (Session.fresh true []) exchange = some s ∧
        (s.arrived (contactHash smsEnv (smsWallet 1) (ownAddress smsEnv (smsWallet 2)))).map (·.d) = [[5], [6]] ∧
        Gapless smsEnv (smsWallet 1) s (ownAddress smsEnv (smsWallet 2)) := by
  refine ⟨rfl, _, rfl, by decide +kernel, sms_log_gapless smsEnv (smsWallet 1) rfl true [] exchange _ ?_ rfl _⟩
  exact everyStep_cons (by decide +kernel) fun t ht => by
    cases ht
    exact everyStep_cons (by decide +kernel) fun _ _ => everyStep_nil

open Sample in
/-- A message the wallet receives from itself is sent for one reader and received for the other. -/
theorem own_message_told_apart :
    ∃ s, run (Session.step smsEnv (smsWallet 1)) (Session.fresh true []) [toItself] = some s ∧
      smsCount smsEnv (smsWallet 1) s.server (ownAddress smsEnv (smsWallet 1)) = 1 ∧
      smsArray smsEnv (smsWallet 1) s.server (ownAddress smsEnv (smsWallet 1)) 1 1 = [⟨[6], true, 101⟩] ∧
      smsGet smsEnv (smsWallet 1) s.server (ownAddress smsEnv (smsWallet 1)) 1 = some ⟨[6], false, 101⟩ := by
  refine ⟨_, rfl, ?_, ?_, ?_⟩ <;> decide +kernel

end Gyro.Wallet
