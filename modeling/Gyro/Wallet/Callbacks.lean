import Gyro.Types

/-!
# Wallet callbacks

The SMS server and the MMS transporter put themselves in front of the wallet's
`i_wallet2_callback` and hand events on (`wallet_zyre.cpp`, `mms_transporter2.cpp`).
-/

namespace Gyro.Wallet

structure SubaddressIndex where
  major : UInt32
  minor : UInt32
  deriving DecidableEq

/-- `hw::device_progress`; the progress is a double, given by its bits. -/
structure DeviceProgress where
  progress : UInt64
  indeterminate : Bool
  deriving DecidableEq

inductive Event where
  | onNewBlock (height : UInt64) (block : Block)
  | onMoneyReceived (height : UInt64) (txid : Hash) (tx : Transaction) (amount : UInt64)
      (subaddrIndex : SubaddressIndex) (isChange : Bool) (unlockTime : UInt64)
  | onSmsReceived (height : UInt64) (txid : Hash) (tx : Transaction) (layer : UInt32) (data : Blob)
      (amount : UInt64) (subaddrIndex : SubaddressIndex)
  | onUnconfirmedMoneyReceived (height : UInt64) (txid : Hash) (tx : Transaction) (amount : UInt64)
      (subaddrIndex : SubaddressIndex)
  | onMoneySpent (height : UInt64) (txid : Hash) (inTx : Transaction) (amount : UInt64)
      (spendTx : Transaction) (subaddrIndex : SubaddressIndex)
  | onSkipTransaction (height : UInt64) (txid : Hash) (tx : Transaction)
  | onGetPassword (reason : String)
  | onLwNewBlock (height : UInt64)
  | onLwMoneyReceived (height : UInt64) (txid : Hash) (amount : UInt64)
  | onLwUnconfirmedMoneyReceived (height : UInt64) (txid : Hash) (amount : UInt64)
  | onLwMoneySpent (height : UInt64) (txid : Hash) (amount : UInt64)
  | onDeviceButtonRequest (code : UInt64)
  | onDeviceButtonPressed
  | onDevicePinRequest
  | onDevicePassphraseRequest (onDevice : Bool)
  | onDeviceProgress (event : DeviceProgress)
  | onPoolTxRemoved (txid : Hash)
  deriving DecidableEq

def Event.Reply : Event → Type
  | .onGetPassword _ => Option String
  | .onDevicePinRequest => Option String
  | .onDevicePassphraseRequest _ => Option String × Bool
  | _ => Unit

def Event.defaultReply : (e : Event) → e.Reply
  | .onGetPassword _ => (none : Option String)
  | .onDevicePinRequest => (none : Option String)
  | .onDevicePassphraseRequest _ => ((none, true) : Option String × Bool)
  | .onNewBlock .. | .onMoneyReceived .. | .onSmsReceived .. | .onUnconfirmedMoneyReceived ..
  | .onMoneySpent .. | .onSkipTransaction .. | .onLwNewBlock .. | .onLwMoneyReceived ..
  | .onLwUnconfirmedMoneyReceived .. | .onLwMoneySpent .. | .onDeviceButtonRequest ..
  | .onDeviceButtonPressed | .onDeviceProgress .. | .onPoolTxRemoved .. => ()

structure Outcome (e : Event) where
  /-- The handlers called, each with the event it got. -/
  calls : List (Nat × Event)
  /-- The messages given to `on_received`. -/
  received : List (Nat × Blob)
  reply : e.Reply

abbrev Callback := (e : Event) → Outcome e

def Callback.base (answer : (e : Event) → e.Reply) : Callback :=
  fun e => { calls := [(0, e)], received := [], reply := answer e }

/-- `if(callback_) callback_->on_…`, with the default reply where nothing is installed. -/
def forward (callback : Option Callback) (e : Event) : Outcome e :=
  match callback with
  | some c => c e
  | none => { calls := [], received := [], reply := e.defaultReply }

def Outcome.under {e : Event} (level : Nat) (o : Outcome e) : Outcome e :=
  { o with calls := (level, e) :: o.calls }

/-- The forwarding of `on_get_password`: the lower handler is asked, its answer dropped. -/
def forwardPassword (callback : Option Callback) (reason : String) : Outcome (.onGetPassword reason) :=
  { forward callback (.onGetPassword reason) with reply := (none : Option String) }

def smsLayer : UInt32 := 1
def mmsLayer : UInt32 := 2

/-- `CRYPTONOTE_MESSAGE_TX_AMOUNT`, `COIN_DEFAULT` unless an option sets it. -/
def messageTxAmount : UInt64 := 1000000000000

def server (callback : Option Callback) (level : Nat) : Callback
  | .onSmsReceived height txid tx layer data amount i =>
    { calls := [(level, .onSmsReceived height txid tx layer data amount i)]
      received := if layer = smsLayer ∧ messageTxAmount ≤ amount then [(level, data)] else []
      reply := () }
  | .onGetPassword reason => (forwardPassword callback reason).under level
  | e => (forward callback e).under level

def mmsTransporter2 (callback : Option Callback) (level : Nat) : Callback
  | .onSmsReceived height txid tx layer data amount i =>
    { calls := [(level, .onSmsReceived height txid tx layer data amount i)]
      received := if layer = mmsLayer then [(level, data)] else []
      reply := () }
  | .onGetPassword reason => (forwardPassword callback reason).under level
  | e => (forward callback e).under level

inductive Handler where
  | sms
  | mms
  deriving DecidableEq

def Handler.layer : Handler → UInt32
  | .sms => smsLayer
  | .mms => mmsLayer

def Handler.on : Handler → Option Callback → Nat → Callback
  | .sms => server
  | .mms => mmsTransporter2

def install (answer : Option ((e : Event) → e.Reply)) : List Handler → Option Callback
  | [] => answer.map Callback.base
  | h :: below => some (h.on (install answer below) (below.length + 1))

def raise (answer : Option ((e : Event) → e.Reply)) (stack : List Handler) (e : Event) : Outcome e :=
  forward (install answer stack) e

def Handler.Consumes (h : Handler) : Event → Prop
  | .onSmsReceived _ _ _ layer _ _ _ => h.layer = layer
  | _ => False

/-- Nothing at or below a level can tell that handlers lie above, but for the messages these
consume. -/
structure Transparent (answer : Option ((e : Event) → e.Reply)) (stack : List Handler) (e : Event) : Prop where
  reaches : ∀ above below, stack = above ++ below → (∀ h ∈ above, ¬ h.Consumes e) →
    (below ≠ [] ∨ answer.isSome) → (below.length, e) ∈ (raise answer stack e).calls
  unchanged : ∀ call ∈ (raise answer stack e).calls, call.2 = e
  /-- A message gets to the uppermost handler of its layer. -/
  delivers : ∀ above h below, stack = above ++ h :: below → h.Consumes e → (∀ g ∈ above, ¬ g.Consumes e) →
    (below.length + 1, e) ∈ (raise answer stack e).calls
  returns : ∀ above below, stack = above ++ below → (below ≠ [] ∨ answer.isSome) →
    (raise answer stack e).reply = (raise answer below e).reply

/-- A message must find its handler at the top, or nothing below; a password request, no password to
bring back. -/
def PassesThrough (answer : Option ((e : Event) → e.Reply)) (stack : List Handler) : Event → Prop
  | .onSmsReceived _ _ _ layer _ _ _ =>
    match stack with
    | [] => True
    | h :: below => h.layer = layer ∨ below = [] ∧ answer.isNone
  | .onGetPassword reason =>
    stack = [] ∨ ∀ a, answer = some a → a (.onGetPassword reason) = (none : Option String)
  | _ => True

section
variable {answer : Option ((e : Event) → e.Reply)} {e : Event} {h : Handler} {above below stack : List Handler}

def Event.Handed : Event → Prop
  | .onSmsReceived .. => False
  | _ => True

/-- The methods whose forwarding returns what the handler below returned. -/
def Event.Returned : Event → Prop
  | .onGetPassword _ => False
  | _ => True

@[simp] theorem raise_nil (a : (e : Event) → e.Reply) :
    raise (some a) [] e = { calls := [(0, e)], received := [], reply := a e } := rfl

theorem calls_cons (hh : e.Handed) :
    (raise answer (h :: below) e).calls = (below.length + 1, e) :: (raise answer below e).calls := by
  cases e <;> cases h <;> first | rfl | exact hh.elim

theorem reply_cons (hr : e.Returned) : (raise answer (h :: below) e).reply = (raise answer below e).reply := by
  cases e <;> cases h <;> first | rfl | exact hr.elim

theorem head_called (hb : below ≠ [] ∨ answer.isSome) : (below.length, e) ∈ (raise answer below e).calls := by
  cases below with
  | nil =>
    obtain ⟨a, rfl⟩ := Option.isSome_iff_exists.mp (hb.resolve_left (by simp))
    simp
  | cons h rest => cases h <;> cases e <;> simp [raise, install, forward, Handler.on, server,
      mmsTransporter2, Outcome.under]

theorem called_below (hh : e.Handed) (hb : below ≠ [] ∨ answer.isSome) (above : List Handler) :
    (below.length, e) ∈ (raise answer (above ++ below) e).calls := by
  induction above with
  | nil => exact head_called hb
  | cons h above ih =>
    rw [List.cons_append, calls_cons hh]
    exact List.mem_cons_of_mem _ ih

theorem calls_unchanged (stack : List Handler) : ∀ call ∈ (raise answer stack e).calls, call.2 = e := by
  induction stack with
  | nil => cases answer <;> simp [raise, install, forward, Callback.base]
  | cons h below ih =>
    by_cases hh : e.Handed
    · simpa [calls_cons hh] using ih
    · cases e <;> first | exact absurd trivial hh | skip
      cases h <;> simp [raise, install, forward, Handler.on, server, mmsTransporter2]

theorem reply_append (hr : e.Returned) (above below : List Handler) :
    (raise answer (above ++ below) e).reply = (raise answer below e).reply := by
  induction above with
  | nil => rfl
  | cons h above ih => exact (reply_cons hr).trans ih

theorem Transparent.of_reaches (hr : ∀ above below, stack = above ++ below → (∀ h ∈ above, ¬ h.Consumes e) →
      (below ≠ [] ∨ answer.isSome) → (below.length, e) ∈ (raise answer stack e).calls)
    (ht : ∀ above below, stack = above ++ below → (below ≠ [] ∨ answer.isSome) →
      (raise answer stack e).reply = (raise answer below e).reply) : Transparent answer stack e where
  reaches := hr
  unchanged := calls_unchanged stack
  delivers above h below heq _ hf := by
    simpa using hr above (h :: below) heq hf (by simp)
  returns := ht

theorem Transparent.of_forwarded (hh : e.Handed) (hr : e.Returned) : Transparent answer stack e := by
  apply of_reaches
  · rintro above below rfl - hb
    exact called_below hh hb above
  · rintro above below rfl -
    exact reply_append hr above below

theorem sms_calls (hs : ¬ e.Handed) : (raise answer (h :: below) e).calls = [(below.length + 1, e)] := by
  cases e <;> first | exact absurd trivial hs | cases h <;> rfl

theorem sms_transparent_iff (hs : ¬ e.Handed) :
    Transparent answer (h :: below) e ↔ h.Consumes e ∨ below = [] ∧ answer.isNone := by
  constructor
  · intro ht
    by_contra hsw
    obtain ⟨ho, hmo⟩ := not_or.mp hsw
    have hb : below ≠ [] ∨ answer.isSome := by
      rcases eq_or_ne below [] with hi | hc
      · cases answer <;> simp_all
      · exact Or.inl hc
    have ha := ht.reaches [h] below rfl (by simpa using ho) hb
    simp [sms_calls hs] at ha
  · intro hp
    apply Transparent.of_reaches
    · intro above lower heq hf hl
      cases above with
      | nil => exact heq ▸ head_called hl
      | cons g above =>
        obtain ⟨rfl, hta⟩ := List.cons.inj heq
        rcases hp with hn | ⟨rfl, hno⟩
        · exact absurd hn (hf h (by simp))
        · obtain ⟨rfl, rfl⟩ := List.append_eq_nil_iff.mp hta.symm
          simp [Option.isNone_iff_eq_none.mp hno] at hl
    · intro above lower heq _
      have hr : e.Returned := by cases e <;> first | exact absurd trivial hs | trivial
      exact heq ▸ reply_append hr above lower

theorem password_reply_cons (reason : String) :
    (raise answer (h :: below) (.onGetPassword reason)).reply = (none : Option String) := by
  cases h <;> rfl

theorem password_transparent_iff (reason : String) : Transparent answer (h :: below) (.onGetPassword reason) ↔
      ∀ a, answer = some a → a (.onGetPassword reason) = (none : Option String) := by
  constructor
  · rintro ht a rfl
    have hr := ht.returns (h :: below) [] (by simp) (by simp)
    exact hr.symm.trans (password_reply_cons reason)
  · intro hn
    apply Transparent.of_reaches
    · rintro above lower heq - hl
      have hh : (Event.onGetPassword reason).Handed := trivial
      exact heq ▸ called_below hh hl above
    · intro above lower _ hl
      refine (password_reply_cons reason).trans ?_
      cases lower with
      | nil =>
        obtain ⟨a, rfl⟩ := Option.isSome_iff_exists.mp (hl.resolve_left (by simp))
        exact (hn a rfl).symm
      | cons g lower => exact (password_reply_cons reason).symm

theorem Transparent.bare : Transparent answer [] e := by
  apply of_reaches
  · intro above below heq _ hb
    obtain ⟨rfl, rfl⟩ := List.append_eq_nil_iff.mp heq.symm
    exact head_called hb
  · intro above below heq _
    obtain ⟨rfl, rfl⟩ := List.append_eq_nil_iff.mp heq.symm
    rfl

end

/-- A stack is transparent but for a message not of the top handler's layer and a password to be
returned. -/
theorem callbacks_transparent_iff (answer : Option ((e : Event) → e.Reply)) (stack : List Handler) (e : Event) :
    Transparent answer stack e ↔ PassesThrough answer stack e := by
  cases stack with
  | nil =>
    have hp : PassesThrough answer [] e := by cases e <;> simp [PassesThrough]
    exact iff_of_true Transparent.bare hp
  | cons h below =>
    cases e
    case onSmsReceived => exact sms_transparent_iff id
    case onGetPassword reason => simp [PassesThrough, password_transparent_iff]
    all_goals exact iff_of_true (Transparent.of_forwarded trivial trivial) trivial

def mmsTx : Transaction where
  hash := 1
  version := 2
  unlockTime := 0
  vin := []
  vout := []
  extra := [.sms 2 [1, 2, 3]]
  rctSignatures := RctSig.null
  weight := 0
  fee := 0
  pruned := false

def mmsMessage : Event := .onSmsReceived 0 1 mmsTx mmsLayer [1, 2, 3] messageTxAmount ⟨0, 0⟩

def knowsPassword : (e : Event) → e.Reply
  | .onGetPassword _ => (some "secret" : Option String)
  | e => e.defaultReply

/-- The SMS server swallows the message of the transporter below, and the password gets lost. -/
theorem server_swallows_mms : ¬ Transparent (some Event.defaultReply) [.sms, .mms] mmsMessage ∧
    (raise (some Event.defaultReply) [.sms, .mms] mmsMessage).received = [] ∧
    ¬ Transparent (some knowsPassword) [.sms] (.onGetPassword "output received") := by
  refine ⟨fun ht => ?_, rfl, fun ht => ?_⟩
  · have hf : ∀ g ∈ [Handler.sms], ¬ g.Consumes mmsMessage := by
      simp [Handler.Consumes, mmsMessage, Handler.layer, smsLayer, mmsLayer]
    have hc := ht.delivers [.sms] .mms [] rfl rfl hf
    have hl : (raise (some Event.defaultReply) [.sms, .mms] mmsMessage).calls = [(2, mmsMessage)] := rfl
    simp [hl] at hc
  · have hr := ht.returns [.sms] [] rfl (by simp)
    cases hr

end Gyro.Wallet
