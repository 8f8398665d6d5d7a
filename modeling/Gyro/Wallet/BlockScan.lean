import Gyro.Lib.Positions
import Gyro.Lib.Runs
import Gyro.Wallet.PoolScan

/-!
# Scanning the blocks of a chain

`process_new_transaction` for a transaction of a block, and
`process_new_blockchain_entry` (`wallet2.cpp`). An output of ours becomes a transfer, is
ignored, or replaces a smaller one with its key. What `detach_blockchain` does not read
is left out.
-/

namespace Gyro.Wallet.Refresh

open Positions Runs List

structure Account where
  watchOnly : Bool
  multisig : Bool
  /-- The key image that `scan_output` gives for an output key. -/
  keyImage : PublicKey → PublicKey
  coldKeyImages : PublicKey → Option PublicKey
  createtime : UInt64
  refreshFromBlockHeight : Nat
  /-- `RefreshNoCoinbase`. -/
  noCoinbase : Bool

/-- The key image a wallet without the spend key has only when it cold signed. -/
def Account.knownImage (a : Account) (key : PublicKey) : Option PublicKey :=
  if !a.watchOnly && !a.multisig then some (a.keyImage key) else a.coldKeyImages key

structure Transfer extends TransferDetails where
  blockHeight : Nat
  txid : Hash
  internalOutputIndex : Nat
  globalOutputIndex : UInt64
  /-- `get_public_key`. -/
  key : PublicKey
  frozen : Bool
  spentHeight : Nat
  keyImage : PublicKey
  keyImageKnown : Bool
  keyImagePartial : Bool
  deriving DecidableEq

/-- An entry of `outs` with its scan info: the output's index in the transaction is `out`. -/
structure Found extends FoundOut where
  out : Nat

/-- A transaction of a block, with what each of its public keys finds, and the payment id. -/
structure ScannedTx where
  tx : Transaction
  spinner : Bool
  oIndices : List UInt64
  passes : List (List Found)
  paymentId : Hash

/-- The transfers, and which of them has an output key, a key image. -/
structure Held where
  transfers : List Transfer
  pubKeys : PublicKey → Option Nat
  keyImages : PublicKey → Option Nat

def Held.empty : Held := ⟨[], fun _ => none, fun _ => none⟩

def Held.wallet2 (s : Held) : Wallet2 where
  callback := false
  transfers := s.transfers.map (·.toTransferDetails)
  pubKeys := s.pubKeys
  keyImages := s.keyImages
  unconfirmedPayments := []

def newTransfer (a : Account) (height : Nat) (t : ScannedTx) (o : Found) : Transfer where
  amount := o.amount
  spent := false
  subaddrIndex := o.index
  blockHeight := height
  txid := t.tx.hash
  internalOutputIndex := o.out
  globalOutputIndex := t.oIndices.getD o.out 0
  key := o.key
  frozen := false
  spentHeight := 0
  keyImage := (a.knownImage o.key).getD (a.keyImage o.key)
  keyImageKnown := (a.knownImage o.key).isSome
  keyImagePartial := a.multisig

/-- The new larger output takes the place of the smaller one of the same key. -/
def Transfer.replace (td : Transfer) (height : Nat) (t : ScannedTx) (o : Found) : Transfer :=
  { td with
    amount := o.amount
    subaddrIndex := o.index
    blockHeight := height
    txid := t.tx.hash
    internalOutputIndex := o.out
    globalOutputIndex := t.oIndices.getD o.out 0 }

def Held.push (a : Account) (s : Held) (td : Transfer) : Held where
  transfers := s.transfers ++ [td]
  pubKeys := assign s.pubKeys td.key s.transfers.length
  keyImages :=
    match a.knownImage td.key with
    | some image => assign s.keyImages image s.transfers.length
    | none => s.keyImages

def Held.receive (a : Account) (height : Nat) (t : ScannedTx) (o : Found) (s : Held) : Held :=
  match s.pubKeys o.key with
  | none => s.push a (newTransfer a height t o)
  | some k =>
    match s.transfers[k]? with
    | none => s
    | some td =>
      if td.spent || td.amount ≥ o.amount then s
      else { s with transfers := s.transfers.set k (td.replace height t o) }

/-- `set_spent`, and the stated amount of an input, which replaces a different one. -/
def Transfer.spend (td : Transfer) (height : Nat) (amount : UInt64) : Transfer :=
  { td with amount := if 0 < amount then amount else td.amount, spent := true, spentHeight := height }

def Held.spend (height : Nat) (s : Held) : TxIn → Held
  | .toKey amount _ kImage =>
    match s.keyImages kImage with
    | none => s
    | some k =>
      match s.transfers[k]? with
      | none => s
      | some td => { s with transfers := s.transfers.set k (td.spend height amount) }
  | _ => s

structure Payment where
  txHash : Hash
  amount : UInt64
  amounts : List UInt64
  fee : UInt64
  blockHeight : Nat
  unlockTime : UInt64
  timestamp : UInt64
  coinbase : Bool
  subaddrIndex : SubaddressIndex
  deriving DecidableEq

def countMoney : List Found → List Got → Except ScanError (List Got)
  | [], got => .ok got
  | o :: outs, got => (addMoney o.index o.amount got) >>= countMoney outs

def receiveOuts (a : Account) (height : Nat) (t : ScannedTx) :
    List Found → Held → Scan → Except ScanError (Held × Scan)
  | [], held, scan => .ok (held, scan)
  | o :: outs, held, scan =>
    if t.tx.vout.length ≤ o.out then .error .walletInternal
    else
      settleOut held.wallet2 o.toFoundOut scan >>= fun scan =>
        receiveOuts a height t outs (held.receive a height t o) scan

def receivePasses (a : Account) (height : Nat) (t : ScannedTx) :
    List (List Found) → Held → Scan → Except ScanError (Held × Scan)
  | [], held, scan => .ok (held, scan)
  | outs :: passes, held, scan =>
    countMoney outs scan.got >>= fun got =>
      if outs ≠ [] ∧ t.tx.vout.length ≠ t.oIndices.length then .error .walletInternal
      else
        receiveOuts a height t outs held { scan with got } >>= fun (held, scan) =>
          receivePasses a height t passes held scan

structure Hashchain where
  genesis : Hash
  offset : Nat
  blockchain : List Hash

structure State where
  held : Held
  /-- The multimap from payment id to payment. -/
  payments : List (Hash × Payment)
  blockchain : Hashchain

def processNewTransaction (a : Account) (height : Nat) (timestamp : UInt64) (w : State) (t : ScannedTx) :
    Except ScanError State :=
  receivePasses a height t t.passes w.held Scan.empty >>= fun (held, scan) =>
    let spending := spendInputs held.wallet2 t.tx
    let held := t.tx.vin.foldl (Held.spend height) held
    let fee :=
      if t.spinner then 0 else if t.tx.version = 1 then spending.money - t.tx.amounts.sum else t.tx.fee
    let got := outsideAccount spending.account scan.got
    if got = [] then .ok { w with held }
    else if scan.total ≠ (scan.got.map (·.money)).sum then .error .exit
    else
      let payment (g : Got) : Payment :=
        { txHash := t.tx.hash, amount := g.money, amounts := g.amounts, fee, blockHeight := height
          unlockTime := t.tx.unlockTime, timestamp, coinbase := t.spinner, subaddrIndex := g.index }
      .ok { w with held, payments := w.payments ++ got.map fun g => (t.paymentId, payment g) }

namespace Hashchain

def size (c : Hashchain) : Nat := c.blockchain.length + c.offset

def pushBack (c : Hashchain) (hash : Hash) : Hashchain where
  genesis := if c.offset = 0 ∧ c.blockchain = [] then hash else c.genesis
  offset := c.offset
  blockchain := c.blockchain ++ [hash]

def crop (c : Hashchain) (height : Nat) : Hashchain :=
  { c with
    blockchain := c.blockchain.take (height - c.offset) ++
      List.replicate (height - c.offset - c.blockchain.length) nullHash }

/-- The offset and the hashes once those below the height are dropped, all but the last one. -/
def trimmed (height : Nat) : Nat → List Hash → Nat × List Hash
  | offset, x :: y :: rest =>
    if height > offset then trimmed height (offset + 1) (y :: rest) else (offset, x :: y :: rest)
  | offset, hashes => (offset, hashes)

def trim (c : Hashchain) (height : Nat) : Hashchain :=
  let r := trimmed height c.offset c.blockchain
  { c with offset := r.1, blockchain := r.2 }

def get? (c : Hashchain) (i : Nat) : Option Hash := if c.offset ≤ i then c.blockchain[i - c.offset]? else none

end Hashchain

structure ScannedBlock where
  hash : Hash
  timestamp : UInt64
  spinner : ScannedTx
  txs : List ScannedTx

def shouldSkipBlock (a : Account) (b : ScannedBlock) (height : Nat) : Bool :=
  !(b.timestamp + 60 * 60 * 24 > a.createtime && height ≥ a.refreshFromBlockHeight)

def ScannedBlock.scanned (b : ScannedBlock) (a : Account) (height : Nat) : List ScannedTx :=
  if shouldSkipBlock a b height then [] else if a.noCoinbase then b.txs else b.spinner :: b.txs

def processTransactions (a : Account) (height : Nat) (timestamp : UInt64) :
    List ScannedTx → State → Except ScanError State
  | [], w => .ok w
  | t :: ts, w => processNewTransaction a height timestamp w t >>= processTransactions a height timestamp ts

/-- `process_new_blockchain_entry`, for the block that comes next. -/
def processNewBlockchainEntry (a : Account) (w : State) (b : ScannedBlock) : Except ScanError State :=
  (processTransactions a w.blockchain.size b.timestamp (b.scanned a w.blockchain.size) w).map fun w =>
    { w with blockchain := w.blockchain.pushBack b.hash }

inductive Op where
  | block (b : ScannedBlock)
  | trim (height : Nat)

def State.step (a : Account) (w : State) : Op → Option State
  | .block b => (processNewBlockchainEntry a w b).toOption
  | .trim height => some { w with blockchain := w.blockchain.trim height }

def State.new (c : Hashchain) : State := ⟨.empty, [], c⟩

/-! ## What happens to the transfers -/

inductive Event where
  | received (height : Nat) (t : ScannedTx) (o : Found)
  | spent (height : Nat) (input : TxIn)

def Event.height : Event → Nat
  | .received height _ _ => height
  | .spent height _ => height

def Held.step (a : Account) (s : Held) : Event → Option Held
  | .received height t o => some (s.receive a height t o)
  | .spent height input => some (s.spend height input)

def ScannedTx.events (t : ScannedTx) (height : Nat) : List Event :=
  t.passes.flatten.map (.received height t) ++ t.tx.vin.map (.spent height)

def eventsFrom (a : Account) : Nat → List Op → List Event
  | _, [] => []
  | height, .block b :: ops => (b.scanned a height).flatMap (·.events height) ++ eventsFrom a (height + 1) ops
  | height, .trim _ :: ops => eventsFrom a height ops

variable {a : Account} {height : Nat} {timestamp : UInt64} {t : ScannedTx} {held held' : Held} {scan scan' : Scan}
  {w w' : State}

theorem run_receiveOuts {outs : List Found} (h : receiveOuts a height t outs held scan = .ok (held', scan')) :
    run (Held.step a) held (outs.map (.received height t)) = some held' := by
  induction outs generalizing held scan with
  | nil =>
    cases h
    rfl
  | cons o outs ih =>
    unfold receiveOuts at h
    split at h
    · cases h
    · obtain ⟨scan₁, -, hr⟩ := Exits.bind_eq_ok.mp h
      exact run_cons_eq_some.mpr ⟨_, rfl, ih hr⟩

theorem run_receivePasses {passes : List (List Found)}
    (h : receivePasses a height t passes held scan = .ok (held', scan')) :
    run (Held.step a) held (passes.flatten.map (.received height t)) = some held' := by
  induction passes generalizing held scan with
  | nil =>
    cases h
    rfl
  | cons outs passes ih =>
    obtain ⟨got, -, h⟩ := Exits.bind_eq_ok.mp h
    split at h
    · cases h
    · obtain ⟨⟨he₁, scan₁⟩, ho, hr⟩ := Exits.bind_eq_ok.mp h
      rw [flatten_cons, map_append, run_append, run_receiveOuts ho]
      exact ih hr

theorem run_spend (inputs : List TxIn) (held : Held) :
    run (Held.step a) held (inputs.map (.spent height)) = some (inputs.foldl (Held.spend height) held) := by
  induction inputs generalizing held with
  | nil => rfl
  | cons input inputs ih => exact run_cons_eq_some.mpr ⟨_, rfl, ih (held.spend height input)⟩

def PaidFrom (n m : Nat) (old new : List (Hash × Payment)) : Prop :=
  ∃ added, new = old ++ added ∧ ∀ p ∈ added, n ≤ p.2.blockHeight ∧ p.2.blockHeight < m

theorem PaidFrom.refl (n m : Nat) (payments : List (Hash × Payment)) : PaidFrom n m payments payments :=
  ⟨[], (append_nil _).symm, fun _ hp => nomatch hp⟩

theorem PaidFrom.trans {n m : Nat} {p q r : List (Hash × Payment)} (h : PaidFrom n m p q) (h' : PaidFrom n m q r) :
    PaidFrom n m p r := by
  obtain ⟨xs, rfl, hx⟩ := h
  obtain ⟨ys, rfl, hy⟩ := h'
  refine ⟨xs ++ ys, append_assoc p xs ys, ?_⟩
  intro e he
  exact (mem_append.mp he).elim (hx e) (hy e)

theorem PaidFrom.mono {n m n' m' : Nat} {p q : List (Hash × Payment)} (h : PaidFrom n m p q) (hn : n' ≤ n)
    (hm : m ≤ m') : PaidFrom n' m' p q := by
  obtain ⟨xs, hq, hx⟩ := h
  refine ⟨xs, hq, ?_⟩
  intro e he
  obtain ⟨hl, hh⟩ := hx e he
  exact ⟨hn.trans hl, hh.trans_le hm⟩

structure Scanned (a : Account) (height : Nat) (events : List Event) (w w' : State) : Prop where
  held : run (Held.step a) w.held events = some w'.held
  payments : PaidFrom height (height + 1) w.payments w'.payments
  blockchain : w'.blockchain = w.blockchain

theorem scanned_processNewTransaction (h : processNewTransaction a height timestamp w t = .ok w') :
    Scanned a height (t.events height) w w' := by
  obtain ⟨⟨held, scan⟩, hs, h⟩ := Exits.bind_eq_ok.mp h
  have hr : run (Held.step a) w.held (t.events height) = some (t.tx.vin.foldl (Held.spend height) held) := by
    unfold ScannedTx.events
    rw [run_append, run_receivePasses hs]
    exact run_spend t.tx.vin held
  dsimp only at h
  split at h
  · cases h
    exact ⟨hr, PaidFrom.refl _ _ _, rfl⟩
  · split at h
    · cases h
    · cases h
      refine ⟨hr, ⟨_, rfl, ?_⟩, rfl⟩
      intro p hp
      obtain ⟨g, -, rfl⟩ := mem_map.mp hp
      exact ⟨Nat.le_refl height, Nat.lt_succ_self height⟩

theorem scanned_processTransactions {ts : List ScannedTx} (h : processTransactions a height timestamp ts w = .ok w') :
    Scanned a height (ts.flatMap (·.events height)) w w' := by
  induction ts generalizing w with
  | nil =>
    cases h
    exact ⟨rfl, PaidFrom.refl _ _ _, rfl⟩
  | cons t ts ih =>
    obtain ⟨w₁, hf, hr⟩ := Exits.bind_eq_ok.mp h
    have ho := scanned_processNewTransaction hf
    have ht := ih hr
    refine ⟨?_, ho.payments.trans ht.payments, ht.blockchain.trans ho.blockchain⟩
    rw [flatMap_cons, run_append, ho.held]
    exact ht.held

/-! ## Following a chain -/

namespace Hashchain

variable {c : Hashchain} {n i : Nat} {hash : Hash}

@[simp] theorem size_pushBack : (c.pushBack hash).size = c.size + 1 := by
  simp [size, pushBack]
  omega

@[simp] theorem offset_pushBack : (c.pushBack hash).offset = c.offset := rfl

theorem get?_pushBack (hi : i < c.size) : (c.pushBack hash).get? i = c.get? i := by
  unfold get?
  rw [offset_pushBack]
  split
  · apply List.getElem?_append_left
    unfold size at hi
    omega
  · rfl

theorem trimmed_spec (n offset : Nat) (hashes : List Hash) : offset ≤ (trimmed n offset hashes).1 ∧
      (trimmed n offset hashes).2 = hashes.drop ((trimmed n offset hashes).1 - offset) ∧
      (trimmed n offset hashes).2.length + (trimmed n offset hashes).1 = hashes.length + offset := by
  induction hashes generalizing offset with
  | nil => simp [trimmed]
  | cons x hashes ih =>
    cases hashes with
    | nil => simp [trimmed]
    | cons y rest =>
      unfold trimmed
      split
      · obtain ⟨hle, hd, hlen⟩ := ih (offset + 1)
        refine ⟨by omega, ?_, ?_⟩
        · obtain ⟨k, hk⟩ : ∃ k, (trimmed n (offset + 1) (y :: rest)).1 - offset = k + 1 :=
            ⟨(trimmed n (offset + 1) (y :: rest)).1 - (offset + 1), by omega⟩
          have hk' : (trimmed n (offset + 1) (y :: rest)).1 - (offset + 1) = k := by omega
          rw [hd, hk, hk']
          rfl
        · rw [hlen]
          simp only [length_cons]
          omega
      · simp

@[simp] theorem size_trim : (c.trim n).size = c.size := (trimmed_spec n c.offset c.blockchain).2.2

theorem offset_le_trim : c.offset ≤ (c.trim n).offset := (trimmed_spec n c.offset c.blockchain).1

theorem get?_trim (hi : (c.trim n).offset ≤ i) : (c.trim n).get? i = c.get? i := by
  have hd : (c.trim n).blockchain = c.blockchain.drop ((c.trim n).offset - c.offset) :=
    (trimmed_spec n c.offset c.blockchain).2.1
  have hle : c.offset ≤ (c.trim n).offset := offset_le_trim
  unfold get?
  rw [if_pos hi, if_pos (hle.trans hi), hd, List.getElem?_drop]
  congr 1
  omega

theorem size_crop (h : c.offset ≤ n) : (c.crop n).size = n := by
  simp only [size, crop, length_append, length_take, length_replicate]
  omega

theorem get?_crop (hn : n ≤ c.size) (hi : i < n) : (c.crop n).get? i = c.get? i := by
  unfold get? crop size at *
  dsimp only
  split
  · rw [List.getElem?_append_left, List.getElem?_take_of_lt]
    · omega
    · rw [length_take]
      omega
  · rfl

theorem get?_of_size_le (hi : c.size ≤ i) : c.get? i = none := by
  unfold get? size at *
  split
  · apply List.getElem?_eq_none
    omega
  · rfl

end Hashchain

structure Follows (a : Account) (ops : List Op) (w w' : State) : Prop where
  held : run (Held.step a) w.held (eventsFrom a w.blockchain.size ops) = some w'.held
  payments : PaidFrom w.blockchain.size w'.blockchain.size w.payments w'.payments
  size_le : w.blockchain.size ≤ w'.blockchain.size
  offset_le : w.blockchain.offset ≤ w'.blockchain.offset
  hashes : ∀ i, w'.blockchain.offset ≤ i → i < w.blockchain.size → w'.blockchain.get? i = w.blockchain.get? i
  heights : ∀ e ∈ eventsFrom a w.blockchain.size ops, w.blockchain.size ≤ e.height ∧ e.height < w'.blockchain.size

theorem height_of_mem_events {e : Event} (he : e ∈ t.events height) : e.height = height := by
  rcases mem_append.mp he with he | he
  · obtain ⟨o, -, rfl⟩ := mem_map.mp he
    rfl
  · obtain ⟨input, -, rfl⟩ := mem_map.mp he
    rfl

theorem follows_of_run {ops : List Op} (h : run (State.step a) w ops = some w') : Follows a ops w w' := by
  induction ops generalizing w with
  | nil =>
    cases h
    exact ⟨rfl, PaidFrom.refl _ _ _, Nat.le_refl _, Nat.le_refl _, fun _ _ _ => rfl, fun _ he => nomatch he⟩
  | cons op ops ih =>
    obtain ⟨w₁, ht, hr⟩ := run_cons_eq_some.mp h
    have hf := ih hr
    cases op with
    | block b =>
      have hn : processNewBlockchainEntry a w b = .ok w₁ := Exits.toOption_eq_some.mp ht
      obtain ⟨w₂, hc, rfl⟩ := Exits.map_eq_ok.mp hn
      have hs := scanned_processTransactions hc
      have hsi : (w₂.blockchain.pushBack b.hash).size = w.blockchain.size + 1 := by
        rw [Hashchain.size_pushBack, hs.blockchain]
      obtain ⟨hhe, hp, hsize_le, hoffset_le, ha, hh⟩ := hf
      rw [hsi] at hhe hp hsize_le ha hh
      rw [hs.blockchain] at hoffset_le
      refine ⟨?_, ?_, Nat.le_of_succ_le hsize_le, hoffset_le, ?_, ?_⟩
      · unfold eventsFrom
        rw [run_append, hs.held]
        exact hhe
      · apply PaidFrom.trans (hs.payments.mono (Nat.le_refl _) hsize_le)
        exact hp.mono (Nat.le_succ _) (Nat.le_refl _)
      · intro i hl hi
        have hold : i < w₂.blockchain.size := by
          rw [hs.blockchain]
          exact hi
        rw [ha i hl (Nat.lt_succ_of_lt hi), Hashchain.get?_pushBack hold, hs.blockchain]
      · intro e he
        rcases mem_append.mp he with he | he
        · obtain ⟨t, -, he⟩ := mem_flatMap.mp he
          rw [height_of_mem_events he]
          exact ⟨Nat.le_refl _, hsize_le⟩
        · obtain ⟨hl, hhi⟩ := hh e he
          exact ⟨Nat.le_of_succ_le hl, hhi⟩
    | trim n =>
      cases ht
      obtain ⟨hhe, hp, hsize_le, hoffset_le, ha, hh⟩ := hf
      rw [Hashchain.size_trim] at hhe hp hsize_le ha hh
      refine ⟨hhe, hp, hsize_le, Hashchain.offset_le_trim.trans hoffset_le, ?_, hh⟩
      intro i hl hi
      rw [ha i hl hi, Hashchain.get?_trim (hoffset_le.trans hl)]

end Gyro.Wallet.Refresh
