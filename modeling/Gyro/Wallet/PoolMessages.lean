import Gyro.Wallet.PoolScan

/-!
# Announcing pool messages

The first scan of the pool announces a message once for every subaddress paid outside the
spending account; every later one finds its payments recorded.
-/

namespace Gyro.Wallet

open List

def Recorded (payments : List (Hash × PoolPaymentDetails)) (txid id : Hash) (index : SubaddressIndex) : Prop :=
  ∃ e ∈ payments, e.1 = id ∧ e.2.pd.txHash = txid ∧ e.2.pd.subaddrIndex = index

def Unrecorded (payments : List (Hash × PoolPaymentDetails)) (txid : Hash) : Prop :=
  ∀ e ∈ payments, e.2.pd.txHash ≠ txid

def Event.announces (txid : Hash) : Event → Bool
  | .onSmsReceived _ id _ _ _ _ _ => id = txid
  | _ => false

def announcements (txid : Hash) (events : List Event) : Nat := events.countP (Event.announces txid)

variable {txid id key : Hash} {index : SubaddressIndex} {env : ScanEnv} {w w' : Wallet2} {tx : Transaction}

section
variable {payments : List (Hash × PoolPaymentDetails)} {pd : PoolPaymentDetails}

theorem recorded_cons {e : Hash × PoolPaymentDetails} : Recorded (e :: payments) txid id index ↔
      (e.1 = id ∧ e.2.pd.txHash = txid ∧ e.2.pd.subaddrIndex = index) ∨ Recorded payments txid id index := by
  simp [Recorded]

theorem emplaceOrReplace_known : (emplaceOrReplace key pd payments).2 = false ↔
      Recorded payments pd.pd.txHash key pd.pd.subaddrIndex := by
  induction payments with
  | nil => simp [emplaceOrReplace, Recorded]
  | cons e rest ih =>
    unfold emplaceOrReplace
    split
    next hs => simp [Recorded, hs]
    next ho =>
      rw [recorded_cons, ih]
      exact ⟨Or.inr, fun h => h.resolve_left ho⟩

theorem recorded_emplaceOrReplace : Recorded (emplaceOrReplace key pd payments).1 txid id index ↔
      Recorded payments txid id index ∨ key = id ∧ pd.pd.txHash = txid ∧ pd.pd.subaddrIndex = index := by
  induction payments with
  | nil => simp [emplaceOrReplace, Recorded]
  | cons e rest ih =>
    unfold emplaceOrReplace
    split
    next hs =>
      obtain ⟨rfl, ht, hi⟩ := hs
      rw [recorded_cons, recorded_cons, ht, hi]
      tauto
    next ho =>
      rw [recorded_cons, recorded_cons, ih, or_assoc]

theorem unrecorded_emplaceOrReplace (hn : pd.pd.txHash ≠ txid) (h : Unrecorded payments txid) :
    Unrecorded (emplaceOrReplace key pd payments).1 txid := by
  induction payments with
  | nil => simpa [emplaceOrReplace, Unrecorded] using hn
  | cons e rest ih =>
    have hr : Unrecorded rest txid := fun e he => h e (mem_cons_of_mem _ he)
    unfold emplaceOrReplace
    split
    next => exact forall_mem_cons.mpr ⟨hn, hr⟩
    next => exact forall_mem_cons.mpr ⟨h e (by simp), ih hr⟩

theorem Unrecorded.not_recorded (h : Unrecorded payments txid) : ¬ Recorded payments txid id index := by
  rintro ⟨e, he, -, ht, -⟩
  exact h e he ht

end

section
variable {c : PoolCall} {fee : UInt64} {a : Announcing} {g : Got} {got : List Got} {callback : Bool}

@[simp] theorem announcements_append (xs ys : List Event) :
    announcements txid (xs ++ ys) = announcements txid xs + announcements txid ys :=
  countP_append

theorem announcements_announce (hs : c.tx.smsFromExtra.isSome) :
    announcements c.tx.hash (announce true c fee id a g).events =
      announcements c.tx.hash a.events + if (announce true c fee id a g).allSame then 0 else 1 := by
  obtain ⟨⟨layer, data⟩, hd⟩ := Option.isSome_iff_exists.mp hs
  simp only [announce, hd, announcements_append, if_true, Bool.and_true]
  cases (a.allSame && !(emplaceOrReplace id _ a.payments).2) <;> simp [announcements, Event.announces]

theorem announcements_announce_other (hn : c.tx.hash ≠ txid) :
    announcements txid (announce callback c fee id a g).events = announcements txid a.events := by
  unfold announce
  cases c.tx.smsFromExtra <;> cases callback <;> dsimp only <;>
    simp only [announcements_append, Bool.and_true, Bool.and_false, Bool.false_eq_true, if_false, if_true] <;>
    (try split) <;> simp [announcements, Event.announces, hn]

theorem allSame_announce : (announce callback c fee id a g).allSame = true ↔
      a.allSame = true ∧ Recorded a.payments c.tx.hash id g.index := by
  simp only [announce, Bool.and_eq_true, Bool.not_eq_true', emplaceOrReplace_known]

theorem recorded_announce : Recorded (announce callback c fee id a g).payments txid key index ↔
      Recorded a.payments txid key index ∨ id = key ∧ c.tx.hash = txid ∧ g.index = index := by
  simp only [announce, recorded_emplaceOrReplace]

theorem recorded_foldl : Recorded (got.foldl (announce callback c fee id) a).payments txid key index ↔
      Recorded a.payments txid key index ∨ id = key ∧ c.tx.hash = txid ∧ index ∈ got.map (·.index) := by
  induction got generalizing a with
  | nil => simp
  | cons g got ih =>
    rw [foldl_cons, ih, recorded_announce, map_cons, mem_cons]
    tauto

theorem unrecorded_foldl (hn : c.tx.hash ≠ txid) (h : Unrecorded a.payments txid) :
    Unrecorded (got.foldl (announce callback c fee id) a).payments txid := by
  induction got generalizing a with
  | nil => exact h
  | cons g got ih => exact ih (unrecorded_emplaceOrReplace hn h)

theorem announcements_foldl_other (hn : c.tx.hash ≠ txid) :
    announcements txid (got.foldl (announce callback c fee id) a).events = announcements txid a.events := by
  induction got generalizing a with
  | nil => rfl
  | cons g got ih => exact ih.trans (announcements_announce_other hn)

theorem announcements_foldl_new (hsm : c.tx.smsFromExtra.isSome)
    (hn : a.allSame = false ∨ Unrecorded a.payments c.tx.hash) :
    announcements c.tx.hash (got.foldl (announce true c fee id) a).events =
      announcements c.tx.hash a.events + got.length := by
  induction got generalizing a with
  | nil => rfl
  | cons g got ih =>
    have hs : (announce true c fee id a g).allSame = false := by
      apply Bool.eq_false_iff.mpr
      intro h
      obtain ⟨ha, hr⟩ := allSame_announce.mp h
      rcases hn with hn | hu
      · exact Bool.noConfusion (hn.symm.trans ha)
      · exact hu.not_recorded hr
    rw [foldl_cons, ih (Or.inl hs), announcements_announce hsm, hs, length_cons]
    simp only [Bool.false_eq_true, if_false]
    omega

theorem announcements_foldl_known (hsm : c.tx.smsFromExtra.isSome) (ha : a.allSame = true)
    (hk : ∀ g ∈ got, Recorded a.payments c.tx.hash id g.index) :
    announcements c.tx.hash (got.foldl (announce true c fee id) a).events = announcements c.tx.hash a.events := by
  induction got generalizing a with
  | nil => rfl
  | cons g got ih =>
    have hs : (announce true c fee id a g).allSame = true := allSame_announce.mpr ⟨ha, hk g (by simp)⟩
    rw [foldl_cons, ih hs, announcements_announce hsm, hs]
    · rfl
    · intro g' hg'
      exact recorded_announce.mpr (Or.inl (hk g' (mem_cons_of_mem _ hg')))

end

/-! ## The wallet between two scans -/

structure SameAccounts (w w' : Wallet2) : Prop where
  callback : w'.callback = w.callback
  keyImages : w'.keyImages = w.keyImages
  subaddrs : w'.transfers.map (·.subaddrIndex) = w.transfers.map (·.subaddrIndex)

/-- The account that a transaction's inputs are from, as far as they are ours. -/
def spendingAccount (w : Wallet2) (tx : Transaction) : Option UInt32 := (spendInputs w tx).account

section
variable {s s' : Spending}

theorem subaddrs_spendInput (i : TxIn) :
    (spendInput w s i).transfers.map (·.subaddrIndex) = s.transfers.map (·.subaddrIndex) := by
  unfold spendInput
  split
  · split
    · rfl
    next k _ =>
      split
      · rfl
      next td ht =>
        split
        · have hk : (s.transfers.map (·.subaddrIndex))[k]? = some td.subaddrIndex := by simp [ht]
          obtain ⟨hl, hg⟩ := List.getElem?_eq_some_iff.mp hk
          rw [map_set, ← hg, set_getElem_self]
        · rfl
  · rfl

theorem subaddrs_spendInputs :
    (spendInputs w tx).transfers.map (·.subaddrIndex) = w.transfers.map (·.subaddrIndex) := by
  have hf : ∀ (ins : List TxIn) (s : Spending),
      (ins.foldl (spendInput w) s).transfers.map (·.subaddrIndex) = s.transfers.map (·.subaddrIndex) := by
    intro ins
    induction ins with
    | nil => exact fun s => rfl
    | cons i ins ih => exact fun s => (ih _).trans (subaddrs_spendInput i)
  exact hf _ _

theorem account_spendInput (hke : w'.keyImages = w.keyImages)
    (hs : s'.transfers.map (·.subaddrIndex) = s.transfers.map (·.subaddrIndex))
    (ha : s'.account = s.account) (i : TxIn) : (spendInput w' s' i).account = (spendInput w s i).account := by
  cases i with
  | toKey amount offsets kImage =>
    simp only [spendInput, hke]
    cases hk : w.keyImages kImage with
    | none => exact ha
    | some k =>
      have hg := congrArg (·[k]?) hs
      simp only [List.getElem?_map] at hg
      cases h : s.transfers[k]? <;> cases h' : s'.transfers[k]? <;> simp_all
  | gen _ => exact ha
  | toScript => exact ha
  | toScripthash => exact ha

theorem SameAccounts.spendingAccount_eq (h : SameAccounts w w') (tx : Transaction) :
    spendingAccount w' tx = spendingAccount w tx := by
  have hf : ∀ (ins : List TxIn) (s s' : Spending),
      s'.transfers.map (·.subaddrIndex) = s.transfers.map (·.subaddrIndex) → s'.account = s.account →
      (ins.foldl (spendInput w') s').account = (ins.foldl (spendInput w) s).account := by
    intro ins
    induction ins with
    | nil => exact fun s s' _ ha => ha
    | cons i ins ih =>
      intro s s' hs ha
      apply ih
      · rw [subaddrs_spendInput, subaddrs_spendInput, hs]
      · exact account_spendInput h.keyImages hs ha i
  exact hf _ _ _ h.subaddrs rfl

end

def callPaymentId (env : ScanEnv) (c : PoolCall) : Hash :=
  paymentId env c.tx (((if c.tx.vout = [] then [] else keyPasses c.tx).getLast?.map (·.1)).getD nullPkey)
    c.blockVersion

theorem announcements_skipTransaction (txid : Hash) (callback : Bool) (c : PoolCall) :
    announcements txid (skipTransaction callback c) = 0 := by
  unfold skipTransaction
  split <;> rfl

def Announcing.start (w : Wallet2) (c : PoolCall) : Announcing :=
  { payments := w.unconfirmedPayments, allSame := true, events := skipTransaction w.callback c }

theorem processNewTransaction_eq_ok {env : ScanEnv} {w w' : Wallet2} {c : PoolCall} {events : List Event}
    (h : processNewTransaction env w c = .ok (w', events)) :
    ∃ scan fee, Scanned env c.tx (fun _ => keyPasses c.tx) scan ∧ SameAccounts w w' ∧
      w'.unconfirmedPayments = ((outsideAccount (spendingAccount w c.tx) scan.got).foldl
        (announce w.callback c fee (callPaymentId env c)) (Announcing.start w c)).payments ∧
      events = ((outsideAccount (spendingAccount w c.tx) scan.got).foldl
        (announce w.callback c fee (callPaymentId env c)) (Announcing.start w c)).events := by
  unfold processNewTransaction at h
  dsimp only at h
  split at h
  · cases h
  next scan hn =>
    have hs := scanned_of_ok hn
    split at h
    next hi =>
      cases h
      refine ⟨scan, 0, hs, ⟨rfl, rfl, subaddrs_spendInputs⟩, ?_⟩
      rw [spendingAccount, hi]
      exact ⟨rfl, rfl⟩
    next =>
      split at h
      · cases h
      · cases h
        exact ⟨scan, _, hs, ⟨rfl, rfl, subaddrs_spendInputs⟩, rfl, rfl⟩

/-! ## Over a sequence of scans -/

def PaysOutside (env : ScanEnv) (w : Wallet2) (tx : Transaction) (index : SubaddressIndex) : Prop :=
  Pays env tx index ∧ spendingAccount w tx ≠ some index.major

def Untold (tx : Transaction) (r : PoolRun) : Prop :=
  Unrecorded r.wallet.unconfirmedPayments tx.hash ∧ announcements tx.hash r.events = 0

def Told (env : ScanEnv) (w : Wallet2) (tx : Transaction) (id : Hash) (r : PoolRun) : Prop :=
  ∃ indices : List SubaddressIndex, indices.Nodup ∧ (∀ i, i ∈ indices ↔ PaysOutside env w tx i) ∧
    (∀ i ∈ indices, Recorded r.wallet.unconfirmedPayments tx.hash id i) ∧
    announcements tx.hash r.events = indices.length

section
variable {r : PoolRun} {p : PoolTx} {ps : List PoolTx}

theorem Scanned.outside {scan : Scan} (h : Scanned env tx (fun _ => keyPasses tx) scan)
    (hs : SameAccounts w w') : ((outsideAccount (spendingAccount w' tx) scan.got).map (·.index)).Nodup ∧
      ∀ i, i ∈ (outsideAccount (spendingAccount w' tx) scan.got).map (·.index) ↔ PaysOutside env w tx i := by
  constructor
  · exact h.distinct.sublist (filter_sublist.map _)
  · intro i
    rw [hs.spendingAccount_eq]
    constructor
    · intro hi
      obtain ⟨g, hg, rfl⟩ := mem_map.mp hi
      obtain ⟨ho, hu⟩ := mem_filter.mp hg
      exact ⟨(h.paid _).mp (mem_map_of_mem ho), of_decide_eq_true hu⟩
    · rintro ⟨hp, hu⟩
      obtain ⟨g, ho, rfl⟩ := mem_map.mp ((h.paid i).mpr hp)
      exact mem_map_of_mem (mem_filter.mpr ⟨ho, decide_eq_true hu⟩)

theorem SameAccounts.processPoolTx (h : SameAccounts w r.wallet) : SameAccounts w (processPoolTx env r p).wallet := by
  unfold Wallet.processPoolTx
  split
  next w' events ho =>
    obtain ⟨_, _, _, hs, _⟩ := processNewTransaction_eq_ok ho
    exact ⟨hs.callback.trans h.callback, hs.keyImages.trans h.keyImages, hs.subaddrs.trans h.subaddrs⟩
  next => exact h

theorem Untold.other (h : Untold tx r) (hn : p.tx.hash ≠ tx.hash) : Untold tx (processPoolTx env r p) := by
  unfold processPoolTx
  split
  next w' events ho =>
    obtain ⟨scan, fee, _, _, hp, rfl⟩ := processNewTransaction_eq_ok ho
    constructor
    · rw [hp]
      exact unrecorded_foldl hn h.1
    · rw [announcements_append, h.2, announcements_foldl_other hn, Nat.zero_add]
      exact announcements_skipTransaction _ _ _
  next => exact h

theorem Told.other (h : Told env w tx id r) (hn : p.tx.hash ≠ tx.hash) : Told env w tx id (processPoolTx env r p) := by
  unfold processPoolTx
  split
  next w' events ho =>
    obtain ⟨scan, fee, _, _, hp, rfl⟩ := processNewTransaction_eq_ok ho
    obtain ⟨indices, hno, hme, hr, hc⟩ := h
    refine ⟨indices, hno, hme, fun i hi => ?_, ?_⟩
    · rw [hp]
      exact recorded_foldl.mpr (Or.inl (hr i hi))
    · rw [announcements_append, hc, announcements_foldl_other hn]
      exact congrArg (indices.length + ·) (announcements_skipTransaction _ _ _)
  next => exact h

theorem Untold.own (h : Untold tx r) (hs : SameAccounts w r.wallet) (hc : w.callback = true)
    (hsm : tx.smsFromExtra.isSome) (ht : p.tx = tx) (hr : (processNewTransaction env r.wallet p.call).toBool) :
    Told env w tx (callPaymentId env p.call) (processPoolTx env r p) := by
  subst ht
  unfold processPoolTx
  split
  next w' events ho =>
    obtain ⟨scan, fee, hsc, _, hp, rfl⟩ := processNewTransaction_eq_ok ho
    obtain ⟨hn, hme⟩ := Scanned.outside hsc hs
    have hon : r.wallet.callback = true := hs.callback.trans hc
    refine ⟨_, hn, hme, fun i hi => ?_, ?_⟩
    · rw [hp]
      exact recorded_foldl.mpr (Or.inr ⟨rfl, rfl, hi⟩)
    · have hu : Unrecorded (Announcing.start r.wallet p.call).payments p.call.tx.hash := h.1
      have ha : announcements p.call.tx.hash (Announcing.start r.wallet p.call).events = 0 :=
        announcements_skipTransaction _ _ _
      rw [announcements_append, h.2, hon, Nat.zero_add, length_map]
      refine (announcements_foldl_new (c := p.call) hsm (Or.inr hu)).trans ?_
      rw [ha, Nat.zero_add]
  next e her => simp [her, Except.toBool] at hr

theorem Told.own (h : Told env w tx (callPaymentId env p.call) r) (hs : SameAccounts w r.wallet)
    (hc : w.callback = true) (hsm : tx.smsFromExtra.isSome) (ht : p.tx = tx) :
    Told env w tx (callPaymentId env p.call) (processPoolTx env r p) := by
  subst ht
  unfold processPoolTx
  split
  next w' events ho =>
    obtain ⟨scan, fee, hsc, _, hp, rfl⟩ := processNewTransaction_eq_ok ho
    obtain ⟨_, hm'⟩ := Scanned.outside hsc hs
    obtain ⟨indices, hn, hme, hr, hco⟩ := h
    have hon : r.wallet.callback = true := hs.callback.trans hc
    refine ⟨indices, hn, hme, fun i hi => ?_, ?_⟩
    · rw [hp]
      exact recorded_foldl.mpr (Or.inl (hr i hi))
    · have hk : ∀ g ∈ outsideAccount (spendingAccount r.wallet p.tx) scan.got,
          Recorded r.wallet.unconfirmedPayments p.call.tx.hash (callPaymentId env p.call) g.index := by
        intro g hg
        exact hr _ ((hme _).mpr ((hm' _).mp (mem_map_of_mem hg)))
      rw [announcements_append, hco, hon]
      apply Nat.add_eq_left.mpr
      refine (announcements_foldl_known (c := p.call) hsm rfl hk).trans ?_
      exact announcements_skipTransaction _ _ _
  next => exact h

theorem Told.processPoolTxs (h : Told env w tx (callPaymentId env ⟨tx, 0, 0, 0, false⟩) r)
    (hs : SameAccounts w r.wallet) (hc : w.callback = true) (hsm : tx.smsFromExtra.isSome)
    (hh : ∀ p ∈ ps, p.tx.hash = tx.hash → p.tx = tx) :
    Told env w tx (callPaymentId env ⟨tx, 0, 0, 0, false⟩) (processPoolTxs env r ps) := by
  induction ps generalizing r with
  | nil => exact h
  | cons p ps ih =>
    refine ih ?_ hs.processPoolTx (fun q hq => hh q (mem_cons_of_mem _ hq))
    by_cases heq : p.tx.hash = tx.hash
    · have ht := hh p (by simp) heq
      subst ht
      exact Told.own (p := p) h hs hc hsm rfl
    · exact h.other heq

theorem Untold.processPoolTxs (h : Untold tx r) (ha : SameAccounts w r.wallet) (hc : w.callback = true)
    (hsm : tx.smsFromExtra.isSome) (hh : ∀ p ∈ ps, p.tx.hash = tx.hash → p.tx = tx)
    (hr : ∃ pre p post, ps = pre ++ p :: post ∧ p.tx = tx ∧
      (processNewTransaction env (processPoolTxs env r pre).wallet p.call).toBool) :
    Told env w tx (callPaymentId env ⟨tx, 0, 0, 0, false⟩) (processPoolTxs env r ps) := by
  induction ps generalizing r with
  | nil =>
    obtain ⟨pre, p, post, hs, _⟩ := hr
    simp at hs
  | cons q ps ih =>
    have hre : ∀ p ∈ ps, p.tx.hash = tx.hash → p.tx = tx := fun p hp => hh p (mem_cons_of_mem _ hp)
    -- The first scan of the transaction that returns may be this one or a later one.
    by_cases hn : q.tx = tx ∧ (processNewTransaction env r.wallet q.call).toBool
    · have ht := h.own ha hc hsm hn.1 hn.2
      obtain ⟨rfl, -⟩ := hn
      exact Told.processPoolTxs (r := processPoolTx env r q) ht ha.processPoolTx hc hsm hre
    · have hu : Untold tx (processPoolTx env r q) := by
        by_cases heq : q.tx.hash = tx.hash
        · have hth := not_and.mp hn (hh q (by simp) heq)
          unfold processPoolTx
          split
          next ho => simp [ho, Except.toBool] at hth
          next => exact h
        · exact h.other heq
      apply ih hu ha.processPoolTx hre
      obtain ⟨pre, p, post, hs, hp⟩ := hr
      cases pre with
      | nil =>
        obtain ⟨rfl, -⟩ := List.cons.inj hs
        exact absurd hp hn
      | cons q' pre =>
        obtain ⟨rfl, rfl⟩ := List.cons.inj hs
        exact ⟨pre, p, post, rfl, hp⟩

end

/-- The message is announced exactly once if and only if the transaction pays exactly one subaddress
outside the account it spends from. -/
theorem message_announced_once_iff (env : ScanEnv) (w : Wallet2) (tx : Transaction) (ps : List PoolTx)
    (hcallback : w.callback = true) (hsms : tx.smsFromExtra.isSome)
    (hnew : Unrecorded w.unconfirmedPayments tx.hash) (hhash : ∀ p ∈ ps, p.tx.hash = tx.hash → p.tx = tx)
    (hreturns : ∃ pre p post, ps = pre ++ p :: post ∧ p.tx = tx ∧
      (processNewTransaction env (processPoolTxs env ⟨w, []⟩ pre).wallet p.call).toBool) :
    announcements tx.hash (processPoolTxs env ⟨w, []⟩ ps).events = 1 ↔ ∃! index, PaysOutside env w tx index := by
  have hu : Untold tx ⟨w, []⟩ := ⟨hnew, rfl⟩
  have hs : SameAccounts w w := ⟨rfl, rfl, rfl⟩
  obtain ⟨indices, hn, hme, -, hc⟩ := hu.processPoolTxs hs hcallback hsms hhash hreturns
  rw [hc, length_eq_one_iff]
  constructor
  · rintro ⟨index, rfl⟩
    refine ⟨index, (hme index).mp (by simp), fun i hi => ?_⟩
    simpa using (hme i).mpr hi
  · rintro ⟨index, hp, hui⟩
    refine ⟨index, ?_⟩
    apply perm_singleton.mp
    apply (perm_ext_iff_of_nodup hn (by simp)).mpr
    intro i
    rw [hme, mem_singleton]
    exact ⟨hui i, fun h => h ▸ hp⟩

namespace Sample

def poolScanEnv : ScanEnv where
  isOutToAcc key _ outKey _ :=
    if outKey = 101 then some ⟨⟨0, 1⟩, key⟩ else if outKey = 102 then some ⟨⟨0, 2⟩, key⟩ else none
  decodeRct _ _ _ := 0
  keysReady := true
  keyImageMatches _ _ _ := true
  extraNonce _ := none
  decryptPaymentId _ _ := none

def watching : Wallet2 where
  callback := true
  transfers := []
  pubKeys _ := none
  keyImages _ := none
  unconfirmedPayments := []

def messageTx (keys : List PublicKey) : Transaction where
  hash := 7
  version := 2
  unlockTime := 0
  vin := []
  vout := keys.map fun key => { amount := messageTxAmount, target := .toKey key }
  extra := [.pubKey 5, .sms 1 [104, 105]]
  rctSignatures := RctSig.null
  weight := 0
  fee := 0
  pruned := false

end Sample

open Sample in
theorem message_announced_once_twice_scanned : announcements 7 (processPoolTxs poolScanEnv ⟨watching, []⟩
      [⟨messageTx [101], false, 10⟩, ⟨messageTx [101], true, 20⟩]).events = 1 ↔
      ∃! index, PaysOutside poolScanEnv watching (messageTx [101]) index := by
  refine message_announced_once_iff poolScanEnv watching (messageTx [101]) _ rfl rfl ?_ ?_ ?_
  · intro e he
    cases he
  · intro p hp _
    simp only [mem_cons, not_mem_nil, or_false] at hp
    rcases hp with rfl | rfl <;> rfl
  · exact ⟨[], ⟨messageTx [101], false, 10⟩, [⟨messageTx [101], true, 20⟩], rfl, rfl, by decide +kernel⟩

open Sample in
/-- A message to two of the wallet's subaddresses is announced twice in one scan. -/
theorem message_announced_twice : PaysOutside poolScanEnv watching (messageTx [101, 102]) ⟨0, 1⟩ ∧
    announcements 7 (processPoolTxs poolScanEnv ⟨watching, []⟩ [⟨messageTx [101, 102], false, 10⟩]).events = 2 := by
  constructor
  · refine ⟨⟨0, ⟨messageTxAmount, .toKey 101⟩, ⟨⟨0, 1⟩, 5⟩, rfl, by decide, rfl, by decide⟩, ?_⟩
    decide
  · decide +kernel

end Gyro.Wallet
