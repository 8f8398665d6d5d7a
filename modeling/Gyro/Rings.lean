import Gyro.Replay
import Gyro.Supply

/-!
# Ring members and the outputs locked for spinning

`check_tx_input` and `scan_outputkeys_for_indexes`: ring members come from the table that
`prepare_handle_incoming_blocks` fills, from the database, or from both. None that is
checked carries the marker of locked money.
-/

namespace Gyro

open Runs Prefixes List

/-! ## The outputs on the chain -/

structure OutputData where
  pubkey : PublicKey
  unlockTime : UInt64
  height : UInt64
  deriving DecidableEq

/-- Each under its amount, but those of a coinbase of version 2 under 0. Every stored output is a
`txout_to_key`. -/
def Transaction.addedOutputs (height : UInt64) (tx : Transaction) : List (UInt64 × OutputData) :=
  let spinnerTx := tx.vin.any fun
    | .gen _ => true
    | _ => false
  tx.vout.filterMap fun out =>
    match out.target with
    | .toKey key =>
      some (if spinnerTx && tx.version = 2 then 0 else out.amount,
        { pubkey := key, unlockTime := tx.unlockTime, height })
    | _ => none

def outputsFrom : UInt64 → List BlockEntry → List (UInt64 × OutputData)
  | _, [] => []
  | height, e :: entries =>
    e.allTxs.flatMap (·.addedOutputs height) ++ outputsFrom (height + 1) entries

def outputsOf (entries : List BlockEntry) (amount : UInt64) : List OutputData :=
  (outputsFrom 0 entries).filterMap fun (a, out) => if a = amount then some out else none

def getOutputKey (entries : List BlockEntry) (amount index : UInt64) : Option OutputData :=
  (outputsOf entries amount)[index.toNat]?

/-- The bulk read that allows a partial result: it stops at the first index
that is not there. -/
def getOutputKeys (entries : List BlockEntry) (amount : UInt64) : List UInt64 → List OutputData
  | [] => []
  | i :: is =>
    match getOutputKey entries amount i with
    | some out => out :: getOutputKeys entries amount is
    | none => []

def absoluteFrom (last : UInt64) : List UInt64 → List UInt64
  | [] => []
  | x :: xs => (last + x) :: absoluteFrom (last + x) xs

def relativeOutputOffsetsToAbsolute (offsets : List UInt64) : List UInt64 := absoluteFrom 0 offsets

/-! ## The check of one input -/

/-- A height, a time, or the marker of locked money, the first value that is no height. -/
def isTxSpendtimeUnlocked (cfg : Config) (height now unlockTime : UInt64) : Bool :=
  if unlockTime < cryptonoteMaxBlockNumber then unlockTime ≤ height - 1 + 1
  else if unlockTime = spinnedMoneyLockedBlocks then false
  else unlockTime ≤ now + cfg.durationTarget * 1

/-- `m_scan_table`: by prefix hash and key image the outputs read in advance. -/
abbrev ScanTable := Hash → PublicKey → Option (List OutputData)

def ScanTable.empty : ScanTable := fun _ _ => none

/-- What the scan of a ring returns: the keys of its members, and the height
of the last one. -/
structure RingScan where
  keys : List PublicKey
  relatedHeight : UInt64

section
variable (cfg : Config) (entries : List BlockEntry) (now : UInt64)

/-- A member beyond the outputs collected so far is read on its own. `none` is `return false`. -/
def handleOutputs (amount : UInt64) : List OutputData → List UInt64 → RingScan → Option RingScan
  | _, [], scan => some scan
  | outputs, i :: is, scan =>
    match outputs.head?.or (getOutputKey entries amount i) with
    | none => none
    | some out =>
      if isTxSpendtimeUnlocked cfg (UInt64.ofNat entries.length) now out.unlockTime then
        handleOutputs amount outputs.tail is
          { keys := scan.keys ++ [out.pubkey], relatedHeight := out.height }
      else none

/-- A row that is too short, and not empty, is completed from the database. -/
def collectOutputs (row : Option (List OutputData)) (amount : UInt64) (offsets : List UInt64) :
    Option (List OutputData) :=
  match row with
  | none =>
    let outputs := getOutputKeys entries amount offsets
    if offsets.length ≠ outputs.length then none else some outputs
  | some outputs =>
    if outputs.length < offsets.length ∧ 0 < outputs.length then
      let addOffsets := offsets.drop outputs.length
      let addOutputs := getOutputKeys entries amount addOffsets
      if addOffsets.length ≠ addOutputs.length then none else some (outputs ++ addOutputs)
    else some outputs

def scanOutputkeysForIndexes (table : ScanTable) (txPrefixHash : Hash) (amount : UInt64)
    (keyOffsets : List UInt64) (kImage : PublicKey) : Option RingScan :=
  if keyOffsets.isEmpty then none
  else
    let offsets := relativeOutputOffsetsToAbsolute keyOffsets
    (collectOutputs entries (table txPrefixHash kImage) amount offsets).bind fun outputs =>
      handleOutputs cfg entries now amount outputs offsets { keys := [], relatedHeight := 0 }

def checkTxInput (table : ScanTable) (txPrefixHash : Hash) (amount : UInt64)
    (keyOffsets : List UInt64) (kImage : PublicKey) : Option RingScan :=
  (scanOutputkeysForIndexes cfg entries now table txPrefixHash amount keyOffsets kImage).bind
    fun scan => if keyOffsets.length ≠ scan.keys.length then none else some scan

end

/-- Every input is a `txin_to_key` whose ring passes; `env` holds the other checks. A pruned
transaction is not looked at. -/
def checkTxInputs (env : Env) (prefixHash : Transaction → Hash) (table : ScanTable)
    (entries : List BlockEntry) (now : UInt64) (tx : Transaction) : Bool :=
  tx.pruned ||
    (tx.vin.all fun
      | .toKey amount keyOffsets kImage =>
        (checkTxInput env.cfg entries now table (prefixHash tx) amount keyOffsets kImage).isSome
      | _ => false) &&
    env.checkTxInputs entries now tx

/-! ## The table of a batch -/

def unique : List UInt64 → List UInt64
  | x :: y :: xs => if x = y then unique (y :: xs) else x :: unique (y :: xs)
  | xs => xs

def Transaction.rings (tx : Transaction) : List (UInt64 × List UInt64) :=
  tx.vin.filterMap fun
    | .toKey amount keyOffsets _ => some (amount, relativeOutputOffsetsToAbsolute keyOffsets)
    | _ => none

def offsetMap (txs : List Transaction) (amount : UInt64) : List UInt64 :=
  unique (sorted ((txs.flatMap (·.rings)).flatMap fun (a, offsets) => if a = amount then offsets else []))

def foundOutputs (offsets : List UInt64) (outputs : List OutputData) : List UInt64 → List OutputData
  | [] => []
  | needed :: rest =>
    match (offsets.findIdx? (· = needed)).bind (outputs[·]?) with
    | some out => out :: foundOutputs offsets outputs rest
    | none => []

def Transaction.inputWith (tx : Transaction) (kImage : PublicKey) : Option (UInt64 × List UInt64) :=
  tx.vin.findSome? fun
    | .toKey amount keyOffsets k => if k = kImage then some (amount, keyOffsets) else none
    | _ => none

/-- The table of a batch, cleared when two transactions have the same prefix hash, and without rows
for an input that is no `txin_to_key`. -/
def fillScanTable (prefixHash : Transaction → Hash) (entries : List BlockEntry)
    (txs : List Transaction) : ScanTable := fun txPrefixHash kImage =>
  if (txs.map prefixHash).Nodup ∧ txs.all (fun tx => tx.keyImages.length = tx.vin.length) then do
    let tx ← txs.find? fun tx => prefixHash tx = txPrefixHash
    let (amount, keyOffsets) ← tx.inputWith kImage
    let offsets := offsetMap txs amount
    return foundOutputs offsets (getOutputKeys entries amount offsets)
      (relativeOutputOffsetsToAbsolute keyOffsets)
  else none

def Blockchain.haveBlock (st : Blockchain) (id : Hash) : Bool :=
  st.db.blockExists id || (st.altBlocks id).isSome || decide (id ∈ st.invalidBlocks)

/-- As far as the table goes. A batch within the precompiled hashes, one with a known block or one
that does not continue the chain, where that is looked at, leaves the table as it is. -/
def prepareHandleIncomingBlocks (prefixHash : Transaction → Hash) (threads : Nat) (st : Blockchain)
    (table : ScanTable) (batch : List (Block × List Transaction)) : ScanTable :=
  if batch.isEmpty then table
  else if st.db.entries.length + batch.length < st.blocksHashCheck.length then table
  else if threads ≤ batch.length ∧ batch.head?.any (fun p => p.1.prevId ≠ st.db.topBlockHash) then table
  else if batch.any fun p => st.haveBlock p.1.hash then table
  else fillScanTable prefixHash st.db.entries (batch.flatMap (·.2))

/-! ## What a scan reads -/

def Reads (entries : List BlockEntry) (amount : UInt64) : List UInt64 → List OutputData → Prop
  | _, [] => True
  | [], _ :: _ => False
  | i :: is, out :: outputs => getOutputKey entries amount i = some out ∧ Reads entries amount is outputs

def RingFrozen (entries : List BlockEntry) (amount : UInt64) (keyOffsets : List UInt64) : Prop :=
  ∀ i ∈ relativeOutputOffsetsToAbsolute keyOffsets,
    ∃ out, getOutputKey entries amount i = some out ∧ out.unlockTime ≠ spinnedMoneyLockedBlocks

section
variable {cfg : Config} {entries more : List BlockEntry} {now amount : UInt64} {i : UInt64}
  {out : OutputData} {outputs : List OutputData} {offsets : List UInt64}

theorem outputsFrom_append (height : UInt64) (entries more : List BlockEntry) :
    ∃ added, outputsFrom height (entries ++ more) = outputsFrom height entries ++ added := by
  induction entries generalizing height with
  | nil => exact ⟨outputsFrom height more, rfl⟩
  | cons e entries ih =>
    obtain ⟨added, ha⟩ := ih (height + 1)
    exact ⟨added, by simp [outputsFrom, ha]⟩

theorem getOutputKey_append (h : getOutputKey entries amount i = some out) :
    getOutputKey (entries ++ more) amount i = some out := by
  obtain ⟨added, ha⟩ := outputsFrom_append 0 entries more
  unfold getOutputKey outputsOf at h ⊢
  have hl := (List.getElem?_eq_some_iff.mp h).1
  rw [ha, filterMap_append, List.getElem?_append_left hl]
  exact h

theorem outputsFrom_created {height : UInt64} (h : (amount, out) ∈ outputsFrom height entries) :
    ∃ e ∈ entries, ∃ tx ∈ e.allTxs, ∃ o ∈ tx.vout, o.target = .toKey out.pubkey ∧ out.unlockTime = tx.unlockTime := by
  induction entries generalizing height with
  | nil => cases h
  | cons e entries ih =>
    obtain hme | hme := mem_append.mp h
    · obtain ⟨tx, hx, hme⟩ := mem_flatMap.mp hme
      obtain ⟨o, ho, hu⟩ := mem_filterMap.mp hme
      cases ht : o.target with
      | toKey key =>
        simp only [ht, Option.some.injEq, Prod.mk.injEq] at hu
        refine ⟨e, mem_cons_self, tx, hx, o, ho, ?_, ?_⟩
        · rw [ht, ← hu.2]
        · rw [← hu.2]
      | toScript => simp [ht] at hu
      | toScripthash => simp [ht] at hu
    · obtain ⟨e', he', hc⟩ := ih hme
      exact ⟨e', mem_cons_of_mem _ he', hc⟩

theorem getOutputKey_created (h : getOutputKey entries amount i = some out) :
    ∃ e ∈ entries, ∃ tx ∈ e.allTxs, ∃ o ∈ tx.vout, o.target = .toKey out.pubkey ∧ out.unlockTime = tx.unlockTime := by
  obtain ⟨⟨a, o⟩, hme, ho⟩ := mem_filterMap.mp (List.mem_of_getElem? h)
  simp only [Option.ite_none_right_eq_some, Option.some.injEq] at ho
  obtain ⟨rfl, rfl⟩ := ho
  exact outputsFrom_created hme

theorem RingFrozen.append {keyOffsets : List UInt64} (h : RingFrozen entries amount keyOffsets) :
    RingFrozen (entries ++ more) amount keyOffsets := by
  intro i hi
  obtain ⟨out, ho, hu⟩ := h i hi
  exact ⟨out, getOutputKey_append ho, hu⟩

theorem reads_nil : Reads entries amount offsets [] := by
  cases offsets with
  | nil => trivial
  | cons i is => trivial

theorem Reads.append_entries (h : Reads entries amount offsets outputs) :
    Reads (entries ++ more) amount offsets outputs := by
  induction outputs generalizing offsets with
  | nil => exact reads_nil
  | cons out outputs ih =>
    cases offsets with
    | nil => exact h
    | cons i is => exact ⟨getOutputKey_append h.1, ih h.2⟩

theorem reads_getOutputKeys : Reads entries amount offsets (getOutputKeys entries amount offsets) := by
  induction offsets with
  | nil => trivial
  | cons i is ih =>
    unfold getOutputKeys
    split
    · rename_i out ho
      exact ⟨ho, ih⟩
    · trivial

section
variable (h : Reads entries amount offsets outputs)
include h

theorem Reads.append {rest : List OutputData} (hr : Reads entries amount (offsets.drop outputs.length) rest) :
    Reads entries amount offsets (outputs ++ rest) := by
  induction outputs generalizing offsets with
  | nil => exact hr
  | cons out outputs ih =>
    cases offsets with
    | nil => exact h
    | cons i is => exact ⟨h.1, ih h.2 hr⟩

theorem Reads.getElem? {j : Nat} (ho : outputs[j]? = some out) (hi : offsets[j]? = some i) :
    getOutputKey entries amount i = some out := by
  induction outputs generalizing offsets j with
  | nil => cases ho
  | cons o outputs ih =>
    cases offsets with
    | nil => cases h
    | cons k is =>
      cases j with
      | zero =>
        cases ho
        cases hi
        exact h.1
      | succ j => exact ih h.2 ho hi

theorem reads_foundOutputs {needed : List UInt64} :
    Reads entries amount needed (foundOutputs offsets outputs needed) := by
  induction needed with
  | nil => trivial
  | cons i needed ih =>
    unfold foundOutputs
    split
    · rename_i out ho
      obtain ⟨j, hj, ho⟩ := Option.bind_eq_some_iff.mp ho
      obtain ⟨hl, ha, _⟩ := List.findIdx?_eq_some_iff_getElem.mp hj
      have hi : offsets[j]? = some i := by
        rw [List.getElem?_eq_getElem hl]
        exact congrArg some (of_decide_eq_true ha)
      exact ⟨h.getElem? ho hi, ih⟩
    · trivial

end

theorem collectOutputs_reads {row : Option (List OutputData)}
    (hr : ∀ outputs, row = some outputs → Reads entries amount offsets outputs)
    (h : collectOutputs entries row amount offsets = some outputs) : Reads entries amount offsets outputs := by
  cases row with
  | none =>
    simp only [collectOutputs, Option.ite_none_left_eq_some, Option.some.injEq] at h
    rw [← h.2]
    exact reads_getOutputKeys
  | some found =>
    have hf := hr found rfl
    unfold collectOutputs at h
    by_cases hp : found.length < offsets.length ∧ 0 < found.length
    · simp only [if_pos hp, Option.ite_none_left_eq_some, Option.some.injEq] at h
      rw [← h.2]
      exact hf.append reads_getOutputKeys
    · simp only [if_neg hp, Option.some.injEq] at h
      rw [← h]
      exact hf

theorem unlockTime_ne_locked {height unlockTime : UInt64}
    (h : isTxSpendtimeUnlocked cfg height now unlockTime = true) : unlockTime ≠ spinnedMoneyLockedBlocks := by
  rintro rfl
  have hn : ¬ spinnedMoneyLockedBlocks < cryptonoteMaxBlockNumber := by decide
  simp [isTxSpendtimeUnlocked, hn] at h

theorem handleOutputs_unlocked {scan scan' : RingScan} (hr : Reads entries amount offsets outputs)
    (h : handleOutputs cfg entries now amount outputs offsets scan = some scan') :
    ∀ i ∈ offsets, ∃ out, getOutputKey entries amount i = some out ∧ out.unlockTime ≠ spinnedMoneyLockedBlocks := by
  induction offsets generalizing outputs scan with
  | nil =>
    intro i hi
    cases hi
  | cons k is ih =>
    unfold handleOutputs at h
    split at h
    · cases h
    · rename_i out ho
      -- the member is the one the database holds, wherever it was collected
      have hmm : getOutputKey entries amount k = some out ∧ Reads entries amount is outputs.tail := by
        cases outputs with
        | nil => exact ⟨ho, reads_nil⟩
        | cons o rest =>
          cases ho
          exact hr
      by_cases hu :
          isTxSpendtimeUnlocked cfg (UInt64.ofNat entries.length) now out.unlockTime = true
      · rw [if_pos hu] at h
        intro i hi
        cases hi with
        | head => exact ⟨out, hmm.1, unlockTime_ne_locked hu⟩
        | tail _ hi => exact ih hmm.2 h i hi
      · rw [if_neg hu] at h
        cases h

theorem checkTxInput_frozen {table : ScanTable} {txPrefixHash : Hash} {keyOffsets : List UInt64}
    {kImage : PublicKey} (hr : ∀ outputs, table txPrefixHash kImage = some outputs →
      Reads entries amount (relativeOutputOffsetsToAbsolute keyOffsets) outputs)
    (h : (checkTxInput cfg entries now table txPrefixHash amount keyOffsets kImage).isSome = true) :
    RingFrozen entries amount keyOffsets := by
  obtain ⟨scan, h⟩ := Option.isSome_iff_exists.mp h
  obtain ⟨scanned, hs, _⟩ := Option.bind_eq_some_iff.mp h
  unfold scanOutputkeysForIndexes at hs
  by_cases hem : keyOffsets.isEmpty = true
  · rw [if_pos hem] at hs
    cases hs
  · rw [if_neg hem] at hs
    obtain ⟨outputs, hc, hh⟩ := Option.bind_eq_some_iff.mp hs
    exact handleOutputs_unlocked (collectOutputs_reads hr hc) hh

end

/-! ## A node with its table -/

structure ScanNode where
  chain : Blockchain
  table : ScanTable

inductive ScanOp where
  | prepare (threads : Nat) (batch : List (Block × List Transaction))
  /-- A step of the chain; a reorganization is a sequence of them. -/
  | chain (op : NodeOp)
  | cleanup

def scanEnv (env : Env) (prefixHash : Transaction → Hash) (table : ScanTable) : Env :=
  { env with checkTxInputs := checkTxInputs env prefixHash table }

/-- Popping a block clears the table, as `cleanup_handle_incoming_blocks` does. -/
def NodeOp.tableAfter (table : ScanTable) : NodeOp → ScanTable
  | .pop => ScanTable.empty
  | _ => table

def scanStep (env : Env) (prefixHash : Transaction → Hash) (fuel : Nat) (s : ScanNode) : ScanOp → Option ScanNode
  | .prepare threads batch =>
    some { s with table := prepareHandleIncomingBlocks prefixHash threads s.chain s.table batch }
  | .chain op =>
    (nodeStep (scanEnv env prefixHash s.table) fuel s.chain op).map fun chain =>
      { chain, table := op.tableAfter s.table }
  | .cleanup => some { s with table := ScanTable.empty }

def Pool.All (T : Transaction → Prop) (p : Pool) : Prop := ∀ id tx, p.lookup id = some tx → T tx

/-- Every transaction the step brings in, with a batch or into the pool, satisfies `T`. -/
def ScanOp.Brings (T : Transaction → Prop) : ScanOp → Prop
  | .prepare _ batch => ∀ tx ∈ batch.flatMap (·.2), T tx
  | .chain (.touch pool _ _) => pool.All T
  | _ => True

/-- Among the transactions brought in the prefix hash determines the inputs. -/
def PrefixBinds (prefixHash : Transaction → Hash) (T : Transaction → Prop) : Prop :=
  ∀ tx tx', T tx → T tx' → prefixHash tx = prefixHash tx' → tx.vin = tx'.vin

/-- Every row for an input of a transaction says what the database says. -/
def ScanTable.Valid (prefixHash : Transaction → Hash) (T : Transaction → Prop)
    (entries : List BlockEntry) (table : ScanTable) : Prop :=
  ∀ tx amount keyOffsets kImage outputs, T tx → tx.keyImages.Nodup →
    .toKey amount keyOffsets kImage ∈ tx.vin → table (prefixHash tx) kImage = some outputs →
    Reads entries amount (relativeOutputOffsetsToAbsolute keyOffsets) outputs

def RingsFrozen (entries : List BlockEntry) (tx : Transaction) : Prop :=
  ∀ amount keyOffsets kImage, .toKey amount keyOffsets kImage ∈ tx.vin →
    RingFrozen entries amount keyOffsets

def BlockFrozen (st : Blockchain) (low : List BlockEntry) (e : BlockEntry) : Prop :=
  expectedHash st (UInt64.ofNat low.length) = none →
    ∀ tx ∈ e.txs, tx.pruned = false → RingsFrozen low tx

structure FrozenNode (prefixHash : Transaction → Hash) (T : Transaction → Prop) (s : ScanNode) : Prop where
  pool : s.chain.pool.All T
  stored : ∀ e ∈ s.chain.db.entries, ∀ tx ∈ e.txs, T tx
  table : s.table.Valid prefixHash T s.chain.db.entries
  chain : Along (BlockFrozen s.chain) [] s.chain.db.entries

section
variable {env : Env} {prefixHash : Transaction → Hash} {T : Transaction → Prop} {fuel : Nat}
  {entries more : List BlockEntry} {table : ScanTable} {txs : List Transaction} {tx : Transaction}
  {st st' : Blockchain} {s t : ScanNode}

theorem empty_valid : ScanTable.empty.Valid prefixHash T entries := by
  intro tx amount keyOffsets kImage outputs _ _ _ hr
  cases hr

theorem ScanTable.Valid.append (h : table.Valid prefixHash T entries) : table.Valid prefixHash T (entries ++ more) := by
  intro tx amount keyOffsets kImage outputs ht hn hi hr
  exact (h tx amount keyOffsets kImage outputs ht hn hi hr).append_entries

theorem inputWith_of_mem {amount : UInt64} {keyOffsets : List UInt64} {kImage : PublicKey}
    (hn : tx.keyImages.Nodup) (hi : .toKey amount keyOffsets kImage ∈ tx.vin) :
    tx.inputWith kImage = some (amount, keyOffsets) := by
  unfold Transaction.keyImages at hn
  unfold Transaction.inputWith
  generalize tx.vin = vin at hn hi
  induction vin with
  | nil => cases hi
  | cons input vin ih =>
    cases input with
    | gen | toScript | toScripthash =>
      cases hi with
      | tail _ hi => exact ih hn hi
    | toKey a offsets k =>
      simp only [filterMap_cons, TxIn.keyImage?, nodup_cons] at hn
      cases hi with
      | head => simp
      | tail _ hi =>
        have hne : k ≠ kImage := by
          rintro rfl
          exact hn.1 (mem_filterMap.mpr ⟨_, hi, rfl⟩)
        simp only [List.findSome?_cons, if_neg hne]
        exact ih hn.2 hi

theorem fillScanTable_valid (hb : PrefixBinds prefixHash T) (ht : ∀ tx ∈ txs, T tx) :
    (fillScanTable prefixHash entries txs).Valid prefixHash T entries := by
  intro tx amount keyOffsets kImage outputs hx hn hin hr
  unfold fillScanTable at hr
  split at hr
  · obtain ⟨tx', hf, hr⟩ := Option.bind_eq_some_iff.mp hr
    obtain ⟨⟨amount', keyOffsets'⟩, hi, hr⟩ := Option.bind_eq_some_iff.mp hr
    have hh : prefixHash tx' = prefixHash tx := by simpa using List.find?_some hf
    have hv := hb tx' tx (ht tx' (List.mem_of_find?_eq_some hf)) hx hh
    unfold Transaction.inputWith at hi
    rw [hv] at hi
    cases (inputWith_of_mem hn hin).symm.trans hi
    cases hr
    exact reads_foundOutputs reads_getOutputKeys
  · cases hr

theorem prepare_valid {threads : Nat} {batch : List (Block × List Transaction)}
    (hb : PrefixBinds prefixHash T) (ha : ∀ tx ∈ batch.flatMap (·.2), T tx)
    (h : table.Valid prefixHash T st.db.entries) :
    (prepareHandleIncomingBlocks prefixHash threads st table batch).Valid prefixHash T st.db.entries := by
  unfold prepareHandleIncomingBlocks
  split
  · exact h
  · split
    · exact h
    · split
      · exact h
      · split
        · exact h
        · exact fillScanTable_valid hb ha

theorem addTransactions_nodup {images : List PublicKey} {hashes : List Hash}
    (h : Db.addTransactions images hashes txs = .ok ()) : ∀ tx ∈ txs, tx.keyImages.Nodup := by
  induction txs generalizing images hashes with
  | nil =>
    intro tx ht
    cases ht
  | cons tx txs ih =>
    unfold Db.addTransactions at h
    split at h
    · cases h
    · rename_i hi
      split at h
      · cases h
      · intro tx' ht'
        cases ht' with
        | head => exact not_not.mp (not_or.mp hi).2
        | tail _ ht' => exact ih h tx' ht'

variable {now : UInt64}

theorem checkTxInputs_frozen (hvalid : table.Valid prefixHash T entries) (ht : T tx)
    (hn : tx.keyImages.Nodup) (hp : tx.pruned = false)
    (h : checkTxInputs env prefixHash table entries now tx = true) : RingsFrozen entries tx := by
  intro amount keyOffsets kImage hi
  simp only [checkTxInputs, hp, Bool.false_or, Bool.and_eq_true, all_eq_true] at h
  refine checkTxInput_frozen ?_ (h.1 _ hi)
  intro outputs hr
  exact hvalid tx amount keyOffsets kImage outputs ht hn hi hr

theorem expectedHash_congr (h : st'.blocksHashCheck = st.blocksHashCheck) : expectedHash st' = expectedHash st := by
  unfold expectedHash
  rw [h]

theorem BlockFrozen.congr (h : st'.blocksHashCheck = st.blocksHashCheck)
    (hc : Along (BlockFrozen st) [] entries) : Along (BlockFrozen st') [] entries := by
  refine hc.mono ?_
  intro low e he hn
  rw [expectedHash_congr h] at hn
  exact he hn

theorem accepted_frozen {b : Block} {taken : Taken} {weight : UInt64} {v : Verified}
    (hvalid : table.Valid prefixHash T st.db.entries) (hp : st.pool.All T)
    (ha : Accepted (scanEnv env prefixHash table) fuel now st b st' taken weight v) :
    BlockFrozen st st.db.entries (newEntry st.db b taken.txs weight v) := by
  intro hn tx ht hr
  have hk := (takeTxs_eq_ok takenFrom_nil ha.taken).takes
  obtain ⟨i, hi⟩ := List.getElem?_of_mem ht
  have hs := hk.inputs i tx hi
  have hf : fastCheck st = false := by
    unfold fastCheck Db.height
    rw [hn]
    rfl
  simp only [inputsAccepted, hf] at hs
  obtain ⟨_, hts, _⟩ := Db.addBlockChecks_eq_ok.mp (Db.addBlock_eq_ok ha.written).1
  have hd := addTransactions_nodup hts tx (mem_cons_of_mem _ ht)
  exact checkTxInputs_frozen hvalid (hp _ tx (hk.held tx ht)) hd hr hs

theorem Pool.All.removeAll {p : Pool} (h : p.All T) (ids : List Hash) : (p.removeAll ids).All T := by
  intro id tx hl
  rw [Pool.lookup_removeAll] at hl
  split at hl
  · cases hl
  · exact h id tx hl

theorem Pool.All.returnTxs {p : Pool} (h : p.All T) (ht : ∀ tx ∈ txs, T tx) : (p.returnTxs txs).All T := by
  induction txs generalizing p with
  | nil => exact h
  | cons tx txs ih =>
    refine ih (p := p.addTx tx) ?_ (fun tx' ht' => ht tx' (mem_cons_of_mem _ ht'))
    intro id tx' hl
    rw [Pool.lookup_addTx] at hl
    split at hl
    · cases hl
      exact ht tx mem_cons_self
    · exact h id tx' hl

theorem handle_raised {b : Block} {f : Fault} (h : handleBlockToMainChain env fuel now st b = .raised f st') :
    ∃ taken, takeTxs env now st b.txHashes { pool := st.pool, txs := [] } = .ok taken ∧ st'.pool = taken.pool := by
  unfold handleBlockToMainChain at h
  split at h
  · cases h
  · split at h
    · cases h
    · rename_i taken ht
      split at h
      · cases h
      · dsimp only at h
        split at h
        · cases h
        · cases h
          exact ⟨taken, ht, rfl⟩
        · split at h
          · cases h
          · cases h

theorem handle_pool {now : UInt64} {b : Block} (h : st.pool.All T) :
    (handleBlockToMainChain env fuel now st b).state.pool.All T := by
  cases ho : handleBlockToMainChain env fuel now st b with
  | added st' =>
    obtain ⟨taken, weight, v, ha⟩ := handle_added ho
    rw [ha.state, (takeTxs_eq_ok takenFrom_nil ha.taken).pool]
    exact h.removeAll _
  | rejected why st' =>
    have hf := rejected_poolAfter ho
    rw [Outcome.state]
    generalize st'.pool = p at hf
    cases hf with
    | same => exact h
    | message id tx _ _ _ _ =>
      intro k tx' hl
      rw [Pool.lookup_remove] at hl
      split at hl
      · cases hl
      · exact h k tx' hl
    | dropped _ _ _ => exact h.removeAll _
  | raised f st' =>
    obtain ⟨taken, ht, hp⟩ := handle_raised ho
    rw [Outcome.state, hp, (takeTxs_eq_ok takenFrom_nil ht).pool]
    exact h.removeAll _

theorem FrozenNode.handle {now : UInt64} {b : Block} (h : FrozenNode prefixHash T s) : FrozenNode prefixHash T
      { chain := (handleBlockToMainChain (scanEnv env prefixHash s.table) fuel now s.chain b).state
        table := s.table } := by
  have hp := @handle_pool (scanEnv env prefixHash s.table) T fuel s.chain now b h.pool
  have hh := @handle_blocksHashCheck (scanEnv env prefixHash s.table) fuel now s.chain b
  by_cases had :
      ∃ st', handleBlockToMainChain (scanEnv env prefixHash s.table) fuel now s.chain b = .added st'
  · obtain ⟨st', hs'⟩ := had
    obtain ⟨taken, weight, v, ha⟩ := handle_added hs'
    rw [hs'] at hp hh ⊢
    have hn : (Outcome.added st').state.db.entries = _ := ha.entries
    constructor
    · exact hp
    · intro e he tx ht
      rw [hn] at he
      obtain hold | hnw := mem_append.mp he
      · exact h.stored e hold tx ht
      · rw [mem_singleton.mp hnw] at ht
        have hk := (takeTxs_eq_ok takenFrom_nil ha.taken).takes
        exact h.pool _ tx (hk.held tx ht)
    · rw [hn]
      exact h.table.append
    · apply BlockFrozen.congr hh
      rw [hn, along_concat]
      exact ⟨h.chain, accepted_frozen h.table h.pool ha⟩
  · obtain ⟨hd, _⟩ := handle_not_added (fun st' h => had ⟨st', h⟩)
    constructor
    · exact hp
    · rw [hd]
      exact h.stored
    · rw [hd]
      exact h.table
    · apply BlockFrozen.congr hh
      rw [hd]
      exact h.chain

theorem FrozenNode.pop {popped : Block} (h : FrozenNode prefixHash T s)
    (hp : popBlockFromBlockchain s.chain = .ok (st', popped)) :
    FrozenNode prefixHash T { chain := st', table := ScanTable.empty } := by
  obtain ⟨e, hr, _, ha⟩ := popBlock_eq_ok hp
  have hn := (Db.removeBlock_eq_ok hr).1
  have hs := h.stored
  have hc := h.chain
  rw [hn] at hs hc
  constructor
  · rw [ha]
    apply h.pool.returnTxs
    intro tx ht
    have hme := mem_reverse.mp (mem_filter.mp ht).1
    exact hs e (by simp) tx hme
  · intro e' he'
    exact hs e' (mem_append_left _ he')
  · exact empty_valid
  · exact BlockFrozen.congr (by rw [ha]) (along_concat.mp hc).1

theorem FrozenNode.step {op : ScanOp} (hb : PrefixBinds prefixHash T) (h : FrozenNode prefixHash T s) (ho : op.Brings T)
    (hs : scanStep env prefixHash fuel s op = some t) : FrozenNode prefixHash T t := by
  cases op with
  | prepare threads batch =>
    cases hs
    exact ⟨h.pool, h.stored, prepare_valid hb ho h.table, h.chain⟩
  | cleanup =>
    cases hs
    exact ⟨h.pool, h.stored, empty_valid, h.chain⟩
  | chain op =>
    obtain ⟨st', hs', rfl⟩ := Option.map_eq_some_iff.mp hs
    cases op with
    | handle now b =>
      cases hs'
      exact h.handle
    | pop =>
      obtain ⟨popped, hp⟩ := nodeStep_pop.mp hs'
      exact h.pop hp
    | store b =>
      obtain ⟨chain, ab, hse⟩ := nodeStep_store.mp hs'
      obtain ⟨_, _, _, _, hr⟩ := storeAlternative_eq_ok hse
      rw [hr.state]
      exact ⟨h.pool, h.stored, h.table, BlockFrozen.congr rfl h.chain⟩
    | removeAlt id =>
      cases hs'
      exact ⟨h.pool, h.stored, h.table, BlockFrozen.congr rfl h.chain⟩
    | touch pool invalidBlocks blocksTxsCheck =>
      cases hs'
      exact ⟨ho, h.stored, h.table, BlockFrozen.congr rfl h.chain⟩

/-- In every run, no ring that is checked, and none of a checked transaction on the main chain, has
a member locked for spinning. -/
theorem locked_outputs_frozen {st₀ : Blockchain} {ops : List ScanOp}
    (hbinds : PrefixBinds prefixHash T) (h₀ : Fresh st₀) (hpool : st₀.pool.All T) (hbrings : ∀ op ∈ ops, op.Brings T)
    (hrun : run (scanStep env prefixHash fuel) { chain := st₀, table := ScanTable.empty } ops = some s) :
    (∀ now tx amount keyOffsets kImage, T tx → tx.keyImages.Nodup → .toKey amount keyOffsets kImage ∈ tx.vin →
        (checkTxInput env.cfg s.chain.db.entries now s.table (prefixHash tx) amount keyOffsets
          kImage).isSome = true → RingFrozen s.chain.db.entries amount keyOffsets) ∧
      ∀ i e, s.chain.db.entries[i]? = some e → expectedHash s.chain (UInt64.ofNat i) = none →
        ∀ tx ∈ e.txs, tx.pruned = false → RingsFrozen s.chain.db.entries tx := by
  have hf : FrozenNode prefixHash T s := by
    apply Reaches.preserves ⟨ops, hrun, hbrings⟩
    · intro s op t hs ho hst
      exact hs.step hbinds ho hst
    · constructor
      · exact hpool
      · rw [h₀.db]
        intro e he
        cases he
      · exact empty_valid
      · rw [h₀.db]
        exact along_nil
  constructor
  · intro now tx amount keyOffsets kImage ht hn hi hp
    refine checkTxInput_frozen ?_ hp
    intro outputs hr
    exact hf.table tx amount keyOffsets kImage outputs ht hn hi hr
  · intro i e he hnn tx ht hpr amount keyOffsets kImage hi
    have hlt : i < s.chain.db.entries.length := (List.getElem?_eq_some_iff.mp he).1
    have hl : (s.chain.db.entries.take i).length = i := by
      rw [length_take]
      omega
    have hb := hf.chain.getElem? he
    rw [nil_append] at hb
    have hri := hb (by rw [hl]; exact hnn) tx ht hpr amount keyOffsets kImage hi
    have ha := @RingFrozen.append _ (s.chain.db.entries.drop i) _ _ hri
    rwa [take_append_drop] at ha

end

namespace Sample

def spendingOps : List ScanOp :=
  ((List.range 61).map fun h =>
      .chain (.handle 1000000 (richBlock h (if h = 0 then 0xffffffffffffff9b else 0) []))) ++
    [.chain (.touch (Pool.empty.addTx burning) [] []), .prepare 4 [(richBlock 61 0 [7000], [burning])],
      .chain (.handle 1000000 (richBlock 61 0 [7000]))]

theorem spendingOps_brings : ∀ op ∈ spendingOps, op.Brings (· = burning) := by
  intro op ho
  obtain ht | hs := mem_append.mp ho
  · obtain ⟨h, _, rfl⟩ := mem_map.mp ht
    trivial
  · simp only [mem_cons, not_mem_nil, or_false] at hs
    obtain rfl | rfl | rfl := hs
    · intro id tx hl
      rw [Pool.lookup_addTx] at hl
      split at hl
      · exact (Option.some.inj hl).symm
      · cases hl
    · simp [ScanOp.Brings]
    · trivial

end Sample

open Sample in
theorem locked_outputs_frozen_for_spent_first_output :
    ∃ s e, run (scanStep (env richConfig) (·.hash) 2) { chain := node, table := ScanTable.empty }
        spendingOps = some s ∧
      s.chain.db.entries[61]? = some e ∧ burning ∈ e.txs ∧ RingsFrozen s.chain.db.entries burning := by
  have hv : ((run (scanStep (env richConfig) (·.hash) 2)
      { chain := node, table := ScanTable.empty } spendingOps).bind fun s =>
        (s.chain.db.entries[61]?).map fun e =>
          decide (burning ∈ e.txs ∧ (expectedHash s.chain (UInt64.ofNat 61)).isNone = true)) =
      some true := by
    decide +kernel
  obtain ⟨s, hr, hre⟩ := Option.bind_eq_some_iff.mp hv
  obtain ⟨e, he, hf⟩ := Option.map_eq_some_iff.mp hre
  obtain ⟨hb, hn⟩ := of_decide_eq_true hf
  refine ⟨s, e, hr, he, hb, ?_⟩
  have hi : PrefixBinds (·.hash) (· = burning) := by
    rintro tx tx' rfl rfl _
    rfl
  have hp : node.pool.All (· = burning) := by
    intro id tx hl
    cases hl
  exact (locked_outputs_frozen hi ⟨rfl, fun _ => rfl⟩ hp spendingOps_brings hr).2 61 e he
    (Option.isNone_iff_eq_none.mp hn) burning hb rfl

end Gyro
