import Gyro.MainChain

/-!
# Accepted blocks

What it takes for `handle_block_to_main_chain` to add a block, and what holds along
every run of accepted blocks.
-/

namespace Gyro

open Runs LastIndex

structure Accepted (env : Env) (fuel : Nat) (now : UInt64) (st : Blockchain) (b : Block)
    (st' : Blockchain) (t : Taken) (weight : UInt64) (v : Verified) : Prop where
  header : headerRejection env now st b = none
  taken : takeTxs env now st b.txHashes { pool := st.pool, txs := [] } = .ok t
  weighed : blockWeight st b t.txs = some weight
  verified : verifyBlock env fuel now st.db b weight (feeSummary t.txs) = .ok v
  written : st.db.addBlock (newEntry st.db b t.txs weight v) = .ok st'.db
  state : st' = { st with db := st'.db, pool := t.pool, blocksTxsCheck := [] }

section
variable {env : Env} {fuel : Nat} {now : UInt64} {st st' : Blockchain} {b : Block} {db : Db}

theorem handle_added (h : handleBlockToMainChain env fuel now st b = .added st') :
    ∃ t weight v, Accepted env fuel now st b st' t weight v := by
  unfold handleBlockToMainChain at h
  split at h
  · cases h
  · rename_i hh
    split at h
    · cases h
    · rename_i t ht
      split at h
      · cases h
      · rename_i weight hwe
        dsimp only at h
        split at h
        · cases h
        · cases h
        · rename_i v hv
          split at h
          · cases h
          · rename_i db hd
            cases h
            exact ⟨t, weight, v, hh, ht, hwe, hv, hd, rfl⟩

theorem handle_added_of {t : Taken} {weight : UInt64} {v : Verified} (h : Accepted env fuel now st b st' t weight v) :
    handleBlockToMainChain env fuel now st b = .added st' := by
  obtain ⟨hh, ht, hwe, hv, hd, hs⟩ := h
  unfold handleBlockToMainChain
  simp only [hh, ht, hwe, hv, hd]
  rw [hs]

section
variable {height : UInt64} {data : SpinnerData}

theorem getSpinnerTransactionLocked_above (hs : env.cfg.startAmountBlocks < height)
    (h : getSpinnerTransactionLocked env fuel db b height = .ok (some data)) :
    ∃ d locked, b.spinData? = some d ∧ calcSpinnerTransactionLocked env fuel db d.nfo = .ok (some locked) ∧
      data = { d with locked } := by
  unfold getSpinnerTransactionLocked at h
  split at h
  · rw [if_pos hs] at h
    cases h
  · rename_i blob hb
    rw [if_pos hs] at h
    split at h
    · rename_i d sig hp hi
      split at h
      · split at h
        · cases h
        · rename_i locked ho
          injection h with h
          obtain ⟨l, hl, hd⟩ := Option.map_eq_some_iff.mp h
          refine ⟨d, l, ?_, by rw [ho, hl], hd.symm⟩
          simp [Block.spinData?, hb, hp]
      · cases h
    · cases h

theorem getSpinnerTransactionLocked_start (hs : ¬ env.cfg.startAmountBlocks < height)
    (h : getSpinnerTransactionLocked env fuel db b height = .ok (some data)) :
    b.spinnerTx.spinDataFromExtra = none ∧ data = SpinnerData.zero := by
  unfold getSpinnerTransactionLocked at h
  split at h
  · rename_i hn
    rw [if_neg hs] at h
    cases h
    exact ⟨hn, rfl⟩
  · rw [if_neg hs] at h
    cases h

theorem getSpinnerTransactionLocked_nfo (h : getSpinnerTransactionLocked env fuel db b height = .ok (some data)) :
    data.nfo = b.spinnerData.nfo := by
  by_cases hs : env.cfg.startAmountBlocks < height
  · obtain ⟨d, locked, hd, _, rfl⟩ := getSpinnerTransactionLocked_above hs h
    rw [spinnerData_of_spinData? hd]
  · obtain ⟨hn, rfl⟩ := getSpinnerTransactionLocked_start hs h
    rw [spinnerData_of_none hn]

theorem verifySpin_eq_ok {spin : SpinType} (h : verifySpin env fuel now db data = .ok spin) :
    getSpin env.cfg db data.nfo.proof.txid data.spin = .ok (some spin) ∧
      ∃ computed timeTo, getSpinnerData env fuel now db data.nfo SpinnerData.zero 0 = .ok (computed, timeTo) ∧
        dataAgrees data computed = true := by
  unfold verifySpin at h
  split at h
  · cases h
  · cases h
  · rename_i spin' hs
    split at h
    · cases h
    · cases h
    · rename_i computed timeTo hd
      split at h
      · rename_i ha
        cases h
        exact ⟨hs, computed, timeTo, hd, ha⟩
      · cases h

theorem verifyBlock_eq_ok {weight fee : UInt64} {v : Verified} (h : verifyBlock env fuel now db b weight fee = .ok v) :
    validateSpinnerTransaction env db b db.height weight fee (alreadyGeneratedCoins db)
        (currentVersion env.cfg db) = some v.reward ∧
      getSpinnerTransactionLocked env fuel db b db.height = .ok (some v.data) ∧
      (env.cfg.startAmountBlocks < db.height → verifySpin env fuel now db v.data = .ok v.spin) ∧
      (¬ env.cfg.startAmountBlocks < db.height → v.spin = SpinType.unit) := by
  unfold verifyBlock at h
  split at h
  · cases h
  · rename_i reward hr
    split at h
    · cases h
    · cases h
    · rename_i data hd
      by_cases hs : env.cfg.startAmountBlocks < db.height
      · rw [if_pos hs] at h
        split at h
        · cases h
        · rename_i spin hsn
          cases h
          exact ⟨hr, hd, fun _ => hsn, fun hn => absurd hs hn⟩
      · rw [if_neg hs] at h
        cases h
        exact ⟨hr, hd, fun hp => absurd hp hs, fun _ => rfl⟩

end

structure Arrival where
  now : UInt64
  pool : Pool
  blocksTxsCheck : List Hash
  block : Block

namespace Blockchain

/-- Accepts an arriving block on the main chain; a block that is not added is no step. -/
def accept (env : Env) (fuel : Nat) (st : Blockchain) (a : Arrival) : Option Blockchain :=
  match handleBlockToMainChain env fuel a.now
    { st with pool := a.pool, blocksTxsCheck := a.blocksTxsCheck } a.block with
  | .added st' => some st'
  | _ => none

end Blockchain

structure HeaderOk (env : Env) (now : UInt64) (st : Blockchain) (b : Block) : Prop where
  prev : b.prevId = st.db.topBlockHash
  version : checkVersion env.cfg st.db b = true
  timestamp : checkBlockTimestamp st.db now b = true
  gyro : (currentGyro st.db).M ≠ 0
  expected : ∀ h, expectedHash st st.db.height = some h → h = b.hash
  checkpoint : passesCheckpoints env.cfg st.db.height b.hash = true
  prevalidated : prevalidateSpinnerTransaction b st.db.height (currentVersion env.cfg st.db) = true

structure Extends (env : Env) (fuel : Nat) (now : UInt64) (db : Db) (b : Block) (db' : Db)
    (txs : List Transaction) (weight : UInt64) (v : Verified) : Prop where
  prev : b.prevId = db.topBlockHash
  timestamp : checkBlockTimestamp db now b = true
  verified : verifyBlock env fuel now db b weight (feeSummary txs) = .ok v
  written : db.addBlock (newEntry db b txs weight v) = .ok db'

section
variable {a : Arrival} {db' : Db} {txs : List Transaction} {weight : UInt64} {v : Verified}

theorem headerRejection_eq_none : headerRejection env now st b = none ↔ HeaderOk env now st b := by
  unfold headerRejection
  dsimp only
  constructor
  · intro h
    split at h
    · cases h
    · rename_i hp
      split at h
      · cases h
      · rename_i hv
        split at h
        · cases h
        · rename_i ht
          split at h
          · cases h
          · rename_i hg
            split at h
            · cases h
            · rename_i hx
              split at h
              · cases h
              · rename_i hc
                split at h
                · cases h
                · rename_i hpe
                  exact ⟨by simpa using hp, by simpa using hv, by simpa using ht, hg,
                    fun h hh => by simpa [hh] using hx, by simpa using hc,
                    by simpa using hpe⟩
  · rintro ⟨hp, hv, ht, hg, hx, hc, hpe⟩
    rw [if_neg (by simpa using hp), if_neg (by simpa using hv), if_neg (by simpa using ht), if_neg hg,
      if_neg (by simpa [Option.any_eq_false] using hx), if_neg (by simpa using hc),
      if_neg (by simpa using hpe)]

theorem headerRejection_none (h : headerRejection env now st b = none) :
    b.prevId = st.db.topBlockHash ∧ checkBlockTimestamp st.db now b = true :=
  ⟨(headerRejection_eq_none.mp h).prev, (headerRejection_eq_none.mp h).timestamp⟩

theorem accept_extends (h : st.accept env fuel a = some st') :
    ∃ txs weight v, Extends env fuel a.now st.db a.block st'.db txs weight v := by
  unfold Blockchain.accept at h
  split at h
  · rename_i st'' hh
    cases h
    obtain ⟨t, weight, v, ha⟩ := handle_added hh
    obtain ⟨hp, ht⟩ := headerRejection_none ha.header
    exact ⟨t.txs, weight, v, hp, ht, ha.verified, ha.written⟩
  · cases h

section
variable (h : Extends env fuel now db b db' txs weight v)
include h

theorem Extends.entry_eq : newEntry db b txs weight v = entryOf b txs weight
      (nextCoins (alreadyGeneratedCoins db) v.reward) (nextGyro db v.spin) := by
  obtain ⟨_, hl, _, _⟩ := verifyBlock_eq_ok h.verified
  have hn := getSpinnerTransactionLocked_nfo hl
  unfold newEntry entryOf Block.viewKey
  rw [hn]

theorem Extends.apply_add :
    db.apply (.add b txs weight (nextCoins (alreadyGeneratedCoins db) v.reward) (nextGyro db v.spin)) = some db' := by
  have ha := h.written
  rw [h.entry_eq] at ha
  change (db.addBlock _).toOption = some db'
  rw [ha]
  rfl

theorem Extends.entries : db'.entries = db.entries ++ [newEntry db b txs weight v] :=
  (Db.addBlock_eq_ok h.written).2.1

end

theorem not_pred_lt {h s : UInt64} (hs : s < h) : ¬ h - 1 < s := by
  grind

theorem Extends.compared (h : Extends env fuel now db b db' txs weight v)
    (hs : env.cfg.startAmountBlocks < db.height) : ∃ d locked computed timeTo, b.spinData? = some d ∧
      calcSpinnerTransactionLocked env fuel db d.nfo = .ok (some locked) ∧
      getSpinnerData env fuel now db d.nfo SpinnerData.zero 0 = .ok (computed, timeTo) ∧
      computed.locked = locked ∧ d.spin = computed.spin ∧ d.mediumSpin = computed.mediumSpin ∧
      d.interval = computed.interval ∧ d.mediumInterval = computed.mediumInterval := by
  obtain ⟨_, ho, hn, _⟩ := verifyBlock_eq_ok h.verified
  obtain ⟨d, locked, hd, hc, hda⟩ := getSpinnerTransactionLocked_above hs ho
  obtain ⟨_, computed, timeTo, hg, ha⟩ := verifySpin_eq_ok (hn hs)
  rw [hda] at hg ha
  simp only [dataAgrees, decide_eq_true_eq] at ha
  obtain ⟨hl, hp, hms, hi, hmi⟩ := ha
  exact ⟨d, locked, computed, timeTo, hd, hc, hg, hl.symm, hp, hms, hi, hmi⟩

/-- What every chain of accepted blocks satisfies. -/
structure ChainOk (cfg : Config) (db : Db) : Prop where
  keys : db.KeysCarried
  index : db.IndexExact
  /-- Above the start blocks every block carries data, with a small spin. -/
  carries : ∀ (i : Nat) (e : BlockEntry), db.entries[i]? = some e →
    cfg.startAmountBlocks.toNat < i →
    ∃ d, e.block.spinData? = some d ∧ d.spin.toNat * 1000000 < 2 ^ 64

theorem startHeight_of_exact (hx : db.IndexExact) {info : SpinnerInfo} {p : Nat} {e : BlockEntry}
    (hp : 0 < p) (he : db.entries[p]? = some e) (hk : e.block.viewKey = info.adr.viewPublicKey) :
    ∃ q, p ≤ q ∧ q < db.entries.length ∧ startHeight db info = UInt64.ofNat q := by
  cases hl : lastIndex (fun e => e.block.viewKey = info.adr.viewPublicKey) db.entries with
  | none =>
    have := lastIndex_none hl he
    simp [hk] at this
  | some q =>
    have hq := lastIndex_lt hl
    have hpq : p ≤ q := by
      by_contra ht
      have := lastIndex_last hl (by omega : q < p) he
      simp [hk] at this
    have hi : db.getSpinnerHeight info.adr.viewPublicKey = UInt64.ofNat q := by
      rw [hx, Db.latestHeight, hl]
      rfl
    have hn : UInt64.ofNat q ≠ 0 := by
      intro h0
      have := congrArg UInt64.toNat h0
      rw [Db.toNat_ofNat_of_lt hq] at this
      change q = 0 at this
      omega
    refine ⟨q, hpq, hq, ?_⟩
    unfold startHeight
    simp only [hi]
    rw [if_neg hn]

theorem empty_chainOk (cfg : Config) : ChainOk cfg Db.empty where
  keys := Db.empty_exact.1
  index := Db.empty_exact.2
  carries i e he := by cases he

theorem Extends.spin_lt (h : Extends env fuel now db b db' txs weight v)
    (hs : env.cfg.startAmountBlocks < db.height) : ∃ d, b.spinData? = some d ∧ d.spin.toNat * 1000000 < 2 ^ 64 := by
  obtain ⟨d, locked, computed, timeTo, hd, _, hg, _, hn, _⟩ := h.compared hs
  obtain ⟨r, l, proofHeight, _, _, _, _, ho⟩ := getSpinnerData_eq_ok (not_pred_lt hs) hg
  obtain ⟨driving, hc⟩ := computeData_eq_ok ho
  refine ⟨d, hd, ?_⟩
  rw [hn]
  exact computeSpin_lt hc.spin

theorem Extends.chainOk (h : Extends env fuel now db b db' txs weight v)
    (hd : ChainOk env.cfg db) : ChainOk env.cfg db' where
  keys := Db.keysCarried_apply hd.keys h.apply_add
  index := Db.indexExact_add hd.index h.apply_add
  carries i e he hi := by
    rw [h.entries] at he
    obtain ⟨_, he⟩ | ⟨rfl, rfl⟩ := getElem?_concat_cases he
    · exact hd.carries i e he hi
    · refine h.spin_lt ?_
      rw [UInt64.lt_iff_toNat_lt, Db.height_toNat]
      exact hi

theorem accept_chainOk (hs : ChainOk env.cfg st.db) (h : st.accept env fuel a = some st') : ChainOk env.cfg st'.db := by
  obtain ⟨txs, weight, v, ht⟩ := accept_extends h
  exact ht.chainOk hs

variable {as : List Arrival}

theorem run_accept_blocks (h : run (Blockchain.accept env fuel) st as = some st') :
    st'.db.entries.map (·.block) = st.db.entries.map (·.block) ++ as.map (·.block) := by
  induction as generalizing st with
  | nil =>
    cases h
    exact (List.append_nil _).symm
  | cons a as ih =>
    obtain ⟨t, hs, hr⟩ := run_cons_eq_some.mp h
    obtain ⟨txs, weight, v, ht⟩ := accept_extends hs
    rw [ih hr, ht.entries, List.map_append, List.append_assoc]
    rfl

theorem run_length (h : run (Blockchain.accept env fuel) st as = some st') :
    st'.db.entries.length = st.db.entries.length + as.length := by
  simpa using congrArg List.length (run_accept_blocks h)

theorem run_chainOk (h₀ : st.db = Db.empty)
    (h : run (Blockchain.accept env fuel) st as = some st') : ChainOk env.cfg st'.db := by
  refine run_preserves (I := fun s => ChainOk env.cfg s.db) ?_ ?_ h
  · intro s i t hs hse
    exact accept_chainOk hs hse
  · rw [h₀]
    exact empty_chainOk env.cfg

end

end

/-! ## A small network with eight start blocks -/

namespace Sample

def config : Config := { Config.default with startAmountBlocks := 8 }

/-- Every signature verifies and every output belongs to the address asked for. -/
def env (cfg : Config) : Env where
  cfg := cfg
  checkSignature _ _ _ := true
  checkTxKeys _ tx _ _ := some (tx.amounts.foldl (· + ·) 0)
  checkTxInputs _ _ _ := true
  cumulWeightMedian _ := 300000

def coinbase (id : Hash) (height amount : UInt64) (extra : List TxExtraField) : Transaction :=
  { hash := id, version := 1, unlockTime := spinnedMoneyLockedBlocks, vin := [.gen height]
    vout := [{ amount, target := .toKey 9 }], extra := extra, rctSignatures := .null
    weight := 100, fee := 0, pruned := false }

def blockId (height : Nat) : Hash := BitVec.ofNat 256 (1000 + height)

def startBlock (cfg : Config) (height : Nat) : Block where
  hash := blockId height
  majorVersion := 1
  minorVersion := 1
  timestamp := 120 * UInt64.ofNat height
  prevId := if height = 0 then nullHash else blockId (height - 1)
  spinnerTx := coinbase (BitVec.ofNat 256 (5000 + height)) (UInt64.ofNat height)
    (if height = 0 then 40000000000000 else cfg.startAmount / cfg.startAmountBlocks) [.pubKey 9]
  txHashes := []

def node : Blockchain where
  db := Db.empty
  pool := Pool.empty
  altBlocks _ := none
  invalidBlocks := []
  blocksHashCheck := []
  blocksTxsCheck := []

def arrival (b : Block) : Arrival :=
  { now := 1000000, pool := Pool.empty, blocksTxsCheck := [], block := b }

def startArrivals (cfg : Config) : List Arrival :=
  (List.range (cfg.startAmountBlocks.toNat + 1)).map fun h => arrival (startBlock cfg h)

def alice : SpinnerInfo where
  adr := { spendPublicKey := 11, viewPublicKey := 12 }
  proof := { txid := 5001, pairs := [{ key := 1, sig := 1 }] }
  pub := 13
  sig := 0
  prevuosHeight := 0

def firstData : SpinnerData where
  nfo := alice
  approximatelyCount := 10
  locked := 125000000000000
  mediumLocked := 125000000000000
  spin := 2236
  mediumSpin := 2236
  interval := 132
  mediumInterval := 120

def spinnerBlock (height : Nat) (timestamp reward : UInt64) (data : SpinnerData) : Block where
  hash := blockId height
  majorVersion := 1
  minorVersion := 1
  timestamp := timestamp
  prevId := blockId (height - 1)
  spinnerTx := coinbase (BitVec.ofNat 256 (5000 + height)) (UInt64.ofNat height) reward
    [.spinData (writeSpinnerData data), .spinSig 0]
  txHashes := []

def firstArrivals (data : SpinnerData) : List Arrival :=
  startArrivals config ++ [arrival (spinnerBlock 9 1080 39997744859481 data)]

end Sample

/-- The small network accepts its start blocks and alice's first block. -/
example : ((run (Blockchain.accept (Sample.env Sample.config) 2) Sample.node
    (Sample.firstArrivals Sample.firstData)).map (·.db.height)) = some 10 := by
  decide +kernel

end Gyro
