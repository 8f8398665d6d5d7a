import Gyro.Lib.Exits
import Gyro.Wallet.Callbacks
import Mathlib.Data.UInt

/-!
# Scanning a pool transaction

`process_new_transaction` for a transaction of the pool (`wallet2.cpp`): what is received
is summed for each subaddress and becomes an unconfirmed payment outside the spending
account.
-/

namespace Gyro.Wallet

structure SubaddressReceiveInfo where
  index : SubaddressIndex
  derivation : PublicKey
  deriving DecidableEq

inductive ExtraNonce where
  | encryptedPaymentId (id : BitVec 64)
  | paymentId (id : Hash)
  | other
  deriving DecidableEq

structure ScanEnv where
  /-- Transaction key, additional keys, output key and output index. -/
  isOutToAcc : PublicKey → List PublicKey → PublicKey → Nat → Option SubaddressReceiveInfo
  decodeRct : RctSig → PublicKey → Nat → UInt64
  /-- The spend key is there, or the password that decrypts it was given. -/
  keysReady : Bool
  /-- `generate_key_image_helper_precomp` succeeds and gives the output's own key. -/
  keyImageMatches : SubaddressReceiveInfo → PublicKey → Nat → Bool
  extraNonce : Transaction → Option ExtraNonce
  decryptPaymentId : BitVec 64 → PublicKey → Option (BitVec 64)

structure TransferDetails where
  amount : UInt64
  spent : Bool
  subaddrIndex : SubaddressIndex
  deriving DecidableEq

structure PaymentDetails where
  txHash : Hash
  amount : UInt64
  amounts : List UInt64
  fee : UInt64
  blockHeight : UInt64
  unlockTime : UInt64
  timestamp : UInt64
  coinbase : Bool
  subaddrIndex : SubaddressIndex
  deriving DecidableEq

structure PoolPaymentDetails where
  pd : PaymentDetails
  doubleSpendSeen : Bool
  deriving DecidableEq

structure Wallet2 where
  /-- `m_callback` is set. -/
  callback : Bool
  transfers : List TransferDetails
  /-- `m_pub_keys` and `m_key_images`: which transfer has an output key, a key image. -/
  pubKeys : PublicKey → Option Nat
  keyImages : PublicKey → Option Nat
  /-- The multimap from payment id to payment. -/
  unconfirmedPayments : List (Hash × PoolPaymentDetails)

inductive ScanError where
  | accOutsLookup
  | passwordNeeded
  | walletInternal
  | exit
  deriving DecidableEq

structure Got where
  index : SubaddressIndex
  money : UInt64
  amounts : List UInt64
  deriving DecidableEq

structure Scan where
  /-- The outputs with `output_found`. -/
  found : List Nat
  /-- The outputs whose scan info keeps its error flag. -/
  failed : List Nat
  got : List Got
  /-- `total_received_1`. -/
  total : UInt64

def Scan.empty : Scan := { found := [], failed := [], got := [], total := 0 }

structure FoundOut where
  key : PublicKey
  index : SubaddressIndex
  amount : UInt64

/-- Adds to a subaddress's sum, unless that would reach the largest word. -/
def addMoney (index : SubaddressIndex) (money : UInt64) : List Got → Except ScanError (List Got)
  | [] => if 0 ≥ 0 - 1 - money then .error .walletInternal else .ok [{ index, money, amounts := [money] }]
  | g :: rest =>
    if g.index = index then
      if g.money ≥ 0 - 1 - money then .error .walletInternal
      else .ok ({ g with money := g.money + money, amounts := g.amounts ++ [money] } :: rest)
    else (addMoney index money rest).map (g :: ·)

def moneyTransfered (env : ScanEnv) (tx : Transaction) (out : TxOut) (info : SubaddressReceiveInfo) (i : Nat) :
    UInt64 :=
  if out.amount = 0 then env.decodeRct tx.rctSignatures info.derivation i else out.amount

/-- With `scan_output` for an output of ours. One found under an earlier key is not looked at again.
-/
def scanOutput (env : ScanEnv) (tx : Transaction) (key : PublicKey) (additional : List PublicKey) (i : Nat)
    (out : TxOut) (s : Scan) : Except ScanError (Scan × List FoundOut) :=
  if i ∈ s.found then
    if i ∈ s.failed then .error .accOutsLookup else .ok (s, [])
  else
    match out.target with
    | .toKey outKey =>
      match env.isOutToAcc key additional outKey i with
      | none => .ok (s, [])
      | some info =>
        if !env.keysReady then .error .passwordNeeded
        else if !env.keyImageMatches info outKey i then .error .walletInternal
        else
          let money := moneyTransfered env tx out info i
          if money = 0 then .ok ({ s with found := i :: s.found, failed := i :: s.failed }, [])
          else
            (addMoney info.index money s.got).map fun got =>
              ({ s with found := i :: s.found, got }, [{ key := outKey, index := info.index, amount := money }])
    | _ => .error .accOutsLookup

def scanOutputs (env : ScanEnv) (tx : Transaction) (key : PublicKey) (additional : List PublicKey) :
    Nat → List TxOut → Scan → Except ScanError (Scan × List FoundOut)
  | _, [], s => .ok (s, [])
  | i, out :: outs, s =>
    match scanOutput env tx key additional i out s with
    | .error e => .error e
    | .ok (s, found) =>
      match scanOutputs env tx key additional (i + 1) outs s with
      | .error e => .error e
      | .ok (s, rest) => .ok (s, found ++ rest)

def changeGot (index : SubaddressIndex) (f : Got → Except ScanError Got) : List Got → Except ScanError (List Got)
  | [] => .error .walletInternal
  | g :: rest => if g.index = index then (f g).map (· :: rest) else (changeGot index f rest).map (g :: ·)

/-- An output whose key a transfer has counts by what it exceeds it, unless that is spent. -/
def settleOut (w : Wallet2) (o : FoundOut) (s : Scan) : Except ScanError Scan :=
  match w.pubKeys o.key with
  | none => .ok { s with total := s.total + o.amount }
  | some k =>
    match w.transfers[k]? with
    | none => .error .walletInternal
    | some td =>
      if td.spent || td.amount ≥ o.amount then
        (changeGot o.index (fun g =>
          if g.money < o.amount ∨ o.amount ∉ g.amounts then .error .walletInternal
          else .ok { g with money := g.money - o.amount, amounts := g.amounts.erase o.amount }) s.got).map
        fun got => { s with got }
      else
        (changeGot o.index (fun g =>
          if g.money < o.amount then .error .walletInternal
          else .ok { g with money := g.money - td.amount }) s.got).map
        fun got => { s with got, total := s.total + (o.amount - td.amount) }

def settleOuts (w : Wallet2) : List FoundOut → Scan → Except ScanError Scan
  | [], s => .ok s
  | o :: outs, s =>
    match settleOut w o s with
    | .error e => .error e
    | .ok s => settleOuts w outs s

/-- The public keys of the extra in order; the additional keys go with the first. -/
def txPubKeys (tx : Transaction) : List PublicKey :=
  tx.extra.filterMap fun
    | .pubKey key => some key
    | _ => none

def keyPasses (tx : Transaction) : List (PublicKey × List PublicKey) :=
  match txPubKeys tx with
  | [] => []
  | key :: keys => (key, tx.additionalTxPubKeysFromExtra) :: keys.map fun k => (k, [])

def scanPasses (env : ScanEnv) (w : Wallet2) (tx : Transaction) :
    List (PublicKey × List PublicKey) → Scan → Except ScanError Scan
  | [], s => .ok s
  | (key, additional) :: passes, s =>
    match scanOutputs env tx key additional 0 tx.vout s with
    | .error e => .error e
    | .ok (s, outs) =>
      match settleOuts w outs s with
      | .error e => .error e
      | .ok s => scanPasses env w tx passes s

/-- The sum of ours, the account of the last of them, and the transfers, with stated amounts. -/
structure Spending where
  money : UInt64
  account : Option UInt32
  transfers : List TransferDetails

def spendInput (w : Wallet2) (s : Spending) : TxIn → Spending
  | .toKey amount _ kImage =>
    match w.keyImages kImage with
    | none => s
    | some k =>
      match s.transfers[k]? with
      | none => s
      | some td =>
        let spent := if 0 < amount then amount else td.amount
        { money := s.money + spent
          account := some td.subaddrIndex.major
          transfers := if 0 < amount then s.transfers.set k { td with amount } else s.transfers }
  | _ => s

def spendInputs (w : Wallet2) (tx : Transaction) : Spending :=
  tx.vin.foldl (spendInput w) { money := 0, account := none, transfers := w.transfers }

def ignoreLongPaymentIdFromBlockVersion : UInt8 := 12

def paymentId (env : ScanEnv) (tx : Transaction) (txPubKey : PublicKey) (blockVersion : UInt8) : Hash :=
  match env.extraNonce tx with
  | some (.encryptedPaymentId id) =>
    if txPubKey = nullPkey then nullHash
    else
      match env.decryptPaymentId id txPubKey with
      | some id => id.setWidth 256
      | none => nullHash
  | some (.paymentId id) => if ignoreLongPaymentIdFromBlockVersion ≤ blockVersion then nullHash else id
  | some .other | none => nullHash

/-- Replaces the payment with the same transaction, subaddress and id, and tells whether there was
none. -/
def emplaceOrReplace (key : Hash) (pd : PoolPaymentDetails) :
    List (Hash × PoolPaymentDetails) → List (Hash × PoolPaymentDetails) × Bool
  | [] => ([(key, pd)], true)
  | e :: rest =>
    if e.1 = key ∧ e.2.pd.txHash = pd.pd.txHash ∧ e.2.pd.subaddrIndex = pd.pd.subaddrIndex then
      ((e.1, pd) :: rest, false)
    else
      let r := emplaceOrReplace key pd rest
      (e :: r.1, r.2)

structure PoolCall where
  tx : Transaction
  height : UInt64
  blockVersion : UInt8
  ts : UInt64
  doubleSpendSeen : Bool

structure Announcing where
  payments : List (Hash × PoolPaymentDetails)
  allSame : Bool
  events : List Event

def announce (callback : Bool) (c : PoolCall) (fee : UInt64) (id : Hash) (a : Announcing) (g : Got) : Announcing :=
  let payment : PaymentDetails :=
    { txHash := c.tx.hash, amount := g.money, amounts := g.amounts, fee, blockHeight := c.height
      unlockTime := c.tx.unlockTime, timestamp := c.ts, coinbase := false, subaddrIndex := g.index }
  let placed := emplaceOrReplace id { pd := payment, doubleSpendSeen := c.doubleSpendSeen } a.payments
  let allSame := a.allSame && !placed.2
  { payments := placed.1
    allSame
    events := a.events ++
      (if callback then [.onUnconfirmedMoneyReceived c.height c.tx.hash c.tx g.money g.index] else []) ++
      (match c.tx.smsFromExtra with
        | some (layer, data) =>
          if !allSame && callback then
            [.onSmsReceived c.height c.tx.hash c.tx layer.toUInt32 data g.money g.index]
          else []
        | none => []) }

def outsideAccount (account : Option UInt32) (got : List Got) : List Got :=
  got.filter fun g => account ≠ some g.index.major

/-- A transaction with outputs whose extra has no public key is skipped. -/
def skipTransaction (callback : Bool) (c : PoolCall) : List Event :=
  if c.tx.vout ≠ [] ∧ keyPasses c.tx = [] ∧ callback then [.onSkipTransaction c.height c.tx.hash c.tx] else []

/-- The call on a pool transaction: the wallet after it and what it told its callback. -/
def processNewTransaction (env : ScanEnv) (w : Wallet2) (c : PoolCall) : Except ScanError (Wallet2 × List Event) :=
  let passes := if c.tx.vout = [] then [] else keyPasses c.tx
  let skipped := skipTransaction w.callback c
  match scanPasses env w c.tx passes Scan.empty with
  | .error e => .error e
  | .ok scan =>
    let spending := spendInputs w c.tx
    let fee := if c.tx.version = 1 then spending.money - c.tx.amounts.sum else c.tx.fee
    let got := outsideAccount spending.account scan.got
    let w := { w with transfers := spending.transfers }
    if got = [] then .ok (w, skipped)
    -- What went to the spending account counts in this sum as well.
    else if scan.total ≠ (scan.got.map (·.money)).sum then .error .exit
    else
      let txPubKey := (passes.getLast?.map (·.1)).getD nullPkey
      let a := got.foldl (announce w.callback c fee (paymentId env c.tx txPubKey c.blockVersion))
        { payments := w.unconfirmedPayments, allSame := true, events := skipped }
      .ok ({ w with unconfirmedPayments := a.payments }, a.events)

structure PoolRun where
  wallet : Wallet2
  events : List Event

structure PoolTx where
  tx : Transaction
  doubleSpendSeen : Bool
  now : UInt64

def PoolTx.call (p : PoolTx) : PoolCall :=
  { tx := p.tx, height := 0, blockVersion := 0, ts := p.now, doubleSpendSeen := p.doubleSpendSeen }

/-- An exception goes up to the refresh loop, and nothing has changed by then. -/
def processPoolTx (env : ScanEnv) (r : PoolRun) (p : PoolTx) : PoolRun :=
  match processNewTransaction env r.wallet p.call with
  | .ok (w, events) => { wallet := w, events := r.events ++ events }
  | .error _ => r

def processPoolTxs (env : ScanEnv) (r : PoolRun) (ps : List PoolTx) : PoolRun := ps.foldl (processPoolTx env) r

def receiver (env : ScanEnv) (passes : List (PublicKey × List PublicKey)) (i : Nat) (out : TxOut) :
    Option SubaddressReceiveInfo :=
  match out.target with
  | .toKey outKey => passes.findSome? fun p => env.isOutToAcc p.1 p.2 outKey i
  | _ => none

def PaysBy (env : ScanEnv) (tx : Transaction) (passes : Nat → List (PublicKey × List PublicKey))
    (index : SubaddressIndex) : Prop :=
  ∃ i out info, tx.vout[i]? = some out ∧ receiver env (passes i) i out = some info ∧ info.index = index ∧
    moneyTransfered env tx out info i ≠ 0

def Pays (env : ScanEnv) (tx : Transaction) (index : SubaddressIndex) : Prop :=
  PaysBy env tx (fun _ => keyPasses tx) index

/-- The scan's state when each output was tried under its own list of keys. -/
structure Scanned (env : ScanEnv) (tx : Transaction) (passes : Nat → List (PublicKey × List PublicKey))
    (s : Scan) : Prop where
  found : ∀ i out, tx.vout[i]? = some out → (i ∈ s.found ↔ (receiver env (passes i) i out).isSome)
  paid : ∀ index, index ∈ s.got.map (·.index) ↔ PaysBy env tx passes index
  distinct : (s.got.map (·.index)).Nodup

variable {env : ScanEnv} {w : Wallet2} {tx : Transaction} {p p' : Nat → List (PublicKey × List PublicKey)}
  {s s' : Scan} {index : SubaddressIndex} {money : UInt64} {got got' : List Got} {o : FoundOut}
  {i : Nat} {out : TxOut} {key : PublicKey} {additional : List PublicKey} {found : List FoundOut}

theorem keys_addMoney (h : addMoney index money got = .ok got') : got'.map (·.index) =
      if index ∈ got.map (·.index) then got.map (·.index) else got.map (·.index) ++ [index] := by
  induction got generalizing got' with
  | nil =>
    unfold addMoney at h
    split at h
    · cases h
    · cases h
      rfl
  | cons g rest ih =>
    unfold addMoney at h
    split at h
    next heq =>
      split at h
      · cases h
      · cases h
        simp [heq]
    next hn =>
      obtain ⟨rest', hr, rfl⟩ := Exits.map_eq_ok.mp h
      simp only [List.map_cons, ih hr, List.mem_cons, Ne.symm hn, false_or]
      split <;> rfl

theorem keys_changeGot {f : Got → Except ScanError Got} (hf : ∀ g g', f g = .ok g' → g'.index = g.index)
    (h : changeGot index f got = .ok got') : got'.map (·.index) = got.map (·.index) := by
  induction got generalizing got' with
  | nil => cases h
  | cons g rest ih =>
    unfold changeGot at h
    split at h
    · obtain ⟨g', hg, rfl⟩ := Exits.map_eq_ok.mp h
      simp [hf g g' hg]
    · obtain ⟨rest', hr, rfl⟩ := Exits.map_eq_ok.mp h
      simp [ih hr]

theorem settleOut_kept (h : settleOut w o s = .ok s') :
    s'.found = s.found ∧ s'.got.map (·.index) = s.got.map (·.index) := by
  unfold settleOut at h
  split at h
  · cases h
    exact ⟨rfl, rfl⟩
  · split at h
    · cases h
    · split at h
      all_goals
        obtain ⟨got', ho, rfl⟩ := Exits.map_eq_ok.mp h
        refine ⟨rfl, keys_changeGot ?_ ho⟩
        intro g g' hg
        split at hg <;> cases hg
        rfl

theorem settleOuts_kept {outs : List FoundOut} (h : settleOuts w outs s = .ok s') :
    s'.found = s.found ∧ s'.got.map (·.index) = s.got.map (·.index) := by
  induction outs generalizing s with
  | nil => cases h; exact ⟨rfl, rfl⟩
  | cons o outs ih =>
    unfold settleOuts at h
    split at h
    · cases h
    next t ht =>
      obtain ⟨hf, hk⟩ := settleOut_kept ht
      exact ⟨(ih h).1.trans hf, (ih h).2.trans hk⟩

theorem receiver_append (ps : List (PublicKey × List PublicKey)) (q : PublicKey × List PublicKey) :
    receiver env (ps ++ [q]) i out = (receiver env ps i out).or (receiver env [q] i out) := by
  unfold receiver
  split <;> simp [List.findSome?_append]

theorem Scanned.congr (h : Scanned env tx p s)
    (heq : ∀ i out, tx.vout[i]? = some out → receiver env (p' i) i out = receiver env (p i) i out) :
    Scanned env tx p' s := by
  refine ⟨?_, ?_, h.distinct⟩
  · intro i out ho
    rw [heq i out ho, h.found i out ho]
  · intro index
    rw [h.paid index]
    constructor
    · rintro ⟨i, out, info, ho, hr, hre⟩
      exact ⟨i, out, info, ho, (heq i out ho).trans hr, hre⟩
    · rintro ⟨i, out, info, ho, hr, hre⟩
      exact ⟨i, out, info, ho, (heq i out ho).symm.trans hr, hre⟩

theorem Scanned.empty : Scanned env tx (fun _ => []) Scan.empty := by
  have hn : ∀ i out, receiver env [] i out = none := by
    intro i out
    unfold receiver
    split <;> rfl
  constructor
  · simp [hn, Scan.empty]
  · simp [PaysBy, hn, Scan.empty]
  · simp [Scan.empty]

theorem paysBy_update (ho : tx.vout[i]? = some out) (hn : receiver env (p i) i out = none)
    (ht : ∀ j, j ≠ i → p' j = p j) : PaysBy env tx p' index ↔ PaysBy env tx p index ∨
      ∃ info, receiver env (p' i) i out = some info ∧ info.index = index ∧ moneyTransfered env tx out info i ≠ 0 := by
  constructor
  · rintro ⟨j, out', info, ho', hr, hre⟩
    by_cases hj : j = i
    · subst hj
      cases ho.symm.trans ho'
      exact Or.inr ⟨info, hr, hre⟩
    · exact Or.inl ⟨j, out', info, ho', ht j hj ▸ hr, hre⟩
  · rintro (⟨j, out', info, ho', hr, hre⟩ | ⟨info, hr, hre⟩)
    · have hj : j ≠ i := by
        rintro rfl
        cases ho.symm.trans ho'
        cases hn.symm.trans hr
      exact ⟨j, out', info, ho', (ht j hj).symm ▸ hr, hre⟩
    · exact ⟨i, out, info, ho, hr, hre⟩

theorem Scanned.unchanged (h : Scanned env tx p s) (ho : tx.vout[i]? = some out)
    (hr : receiver env (p' i) i out = receiver env (p i) i out) (ht : ∀ j, j ≠ i → p' j = p j) :
    Scanned env tx p' s := by
  apply h.congr
  intro j out' ho'
  by_cases hj : j = i
  · subst hj
    cases ho.symm.trans ho'
    exact hr
  · rw [ht j hj]

theorem Scanned.add {info : SubaddressReceiveInfo} (h : Scanned env tx p s) (ho : tx.vout[i]? = some out)
    (hno : receiver env (p i) i out = none) (hr : receiver env (p' i) i out = some info)
    (ht : ∀ j, j ≠ i → p' j = p j) (hf : s'.found = i :: s.found) (hk : s'.got.map (·.index) =
      if moneyTransfered env tx out info i = 0 ∨ info.index ∈ s.got.map (·.index) then s.got.map (·.index)
      else s.got.map (·.index) ++ [info.index]) : Scanned env tx p' s' := by
  constructor
  · intro j out' ho'
    rw [hf]
    by_cases hj : j = i
    · subst hj
      cases ho.symm.trans ho'
      simp [hr]
    · rw [ht j hj, ← h.found j out' ho']
      simp [hj]
  · intro index
    have hp : PaysBy env tx p' index ↔
        index ∈ s.got.map (·.index) ∨ info.index = index ∧ moneyTransfered env tx out info i ≠ 0 := by
      simp [paysBy_update ho hno ht, hr, h.paid]
    rw [hp, hk]
    split
    next hold =>
      constructor
      · exact Or.inl
      · rintro (hi | ⟨rfl, hmo⟩)
        exacts [hi, hold.resolve_left hmo]
    next hn => simp [(not_or.mp hn).1, eq_comm]
  · rw [hk]
    split
    next => exact h.distinct
    next hn => simpa [List.nodup_append, h.distinct] using (not_or.mp hn).2

theorem Scanned.output (h : Scanned env tx p s) (hu : tx.vout[i]? = some out)
    (ho : scanOutput env tx key additional i out s = .ok (s', found))
    (hi : p' i = p i ++ [(key, additional)]) (ht : ∀ j, j ≠ i → p' j = p j) : Scanned env tx p' s' := by
  have ha : receiver env (p' i) i out = (receiver env (p i) i out).or (receiver env [(key, additional)] i out) :=
    hi ▸ receiver_append (p i) (key, additional)
  unfold scanOutput at ho
  split at ho
  next hf =>
    obtain ⟨info, hio⟩ := Option.isSome_iff_exists.mp ((h.found i out hu).mp hf)
    split at ho <;> cases ho
    exact h.unchanged hu (by simp [ha, hio]) ht
  next hfr =>
    have hn : receiver env (p i) i out = none := by
      simpa using mt (h.found i out hu).mpr hfr
    rw [hn] at ha
    split at ho
    next outKey htr =>
      have hon : receiver env (p' i) i out = env.isOutToAcc key additional outKey i := by
        rw [ha]
        simp [receiver, htr]
      split at ho
      next hnot =>
        cases ho
        exact h.unchanged hu (by rw [hon, hnot, hn]) ht
      next info hio =>
        have hr := hon.trans hio
        dsimp only at ho
        split at ho
        · cases ho
        · split at ho
          · cases ho
          · split at ho
            next hzero =>
              cases ho
              exact h.add hu hn hr ht rfl (by simp [hzero])
            next hmo =>
              obtain ⟨got', hg, heq⟩ := Exits.map_eq_ok.mp ho
              cases heq
              exact h.add hu hn hr ht rfl (by simpa [hmo] using keys_addMoney hg)
    next => cases ho

def passesAt (done : List (PublicKey × List PublicKey)) (q : PublicKey × List PublicKey) (n i : Nat) :
    List (PublicKey × List PublicKey) :=
  if i < n then done ++ [q] else done

theorem Scanned.outputs {done : List (PublicKey × List PublicKey)} {n : Nat}
    (h : Scanned env tx (passesAt done (key, additional) n) s)
    (ho : scanOutputs env tx key additional n (tx.vout.drop n) s = .ok (s', found)) :
    Scanned env tx (fun _ => done ++ [(key, additional)]) s' := by
  generalize hr : tx.vout.drop n = outs at ho
  induction outs generalizing n s found with
  | nil =>
    cases ho
    apply h.congr
    intro i out hu
    have hn : tx.vout.length ≤ n := List.drop_eq_nil_iff.mp hr
    have hi : i < n := (List.getElem?_eq_some_iff.mp hu).1.trans_le hn
    simp [passesAt, hi]
  | cons out outs ih =>
    have hu : tx.vout[n]? = some out := by
      have hh := congrArg List.head? hr
      simpa using hh
    have hd : tx.vout.drop (n + 1) = outs := by
      have ht := congrArg List.tail hr
      simpa using ht
    unfold scanOutputs at ho
    split at ho
    · cases ho
    next t found' hs =>
      split at ho
      · cases ho
      next u rest' hl =>
        cases ho
        refine ih (h.output hu hs ?_ ?_) hd hl
        · simp [passesAt]
        · intro j hj
          have hlt : j < n + 1 ↔ j < n := by omega
          simp [passesAt, hlt]

theorem Scanned.passes {done passes : List (PublicKey × List PublicKey)} (h : Scanned env tx (fun _ => done) s)
    (ho : scanPasses env w tx passes s = .ok s') : Scanned env tx (fun _ => done ++ passes) s' := by
  induction passes generalizing done s with
  | nil =>
    cases ho
    simpa using h
  | cons q passes ih =>
    unfold scanPasses at ho
    split at ho
    · cases ho
    next t outs hs =>
      split at ho
      · cases ho
      next u ht =>
        have ha : passesAt done q 0 = fun _ => done := by
          funext i
          simp [passesAt]
        have hp := Scanned.outputs (n := 0) (ha ▸ h) hs
        obtain ⟨hf, hk⟩ := settleOuts_kept ht
        have hse : Scanned env tx (fun _ => done ++ [q]) u := by
          refine ⟨?_, ?_, ?_⟩
          · simpa only [hf] using hp.found
          · simpa only [hk] using hp.paid
          · simpa only [hk] using hp.distinct
        simpa using ih hse ho

theorem scanned_of_ok (ho : scanPasses env w tx (if tx.vout = [] then [] else keyPasses tx) Scan.empty = .ok s) :
    Scanned env tx (fun _ => keyPasses tx) s := by
  have hs := Scanned.empty.passes ho
  apply hs.congr
  intro i out hu
  have hn : tx.vout ≠ [] := by
    rintro hi
    simp [hi] at hu
  simp [hn]

end Gyro.Wallet
