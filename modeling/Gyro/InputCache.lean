import Gyro.AddBlock
import Gyro.Rings

/-!
# The input cache of the pool

`tx_memory_pool::check_tx_inputs` repeats an answer of the blockchain until a block is
added or taken, though it depends on the clock too, through the unlock times.
-/

namespace Gyro

open Runs List

/-! ## What the blockchain answers -/

/-- The checks of `check_tx_inputs` that are not about key images and rings. -/
structure InputRules where
  prefixHash : Transaction → Hash
  /-- Before the inputs: outputs, ring sizes, versions, the order of the inputs. -/
  before : List BlockEntry → Transaction → Bool
  /-- A transaction of version 1 has signatures for an input. -/
  signed : Transaction → Nat → Bool
  /-- The signatures of an input fit its ring. -/
  ring : Transaction → Nat → List PublicKey → Bool
  /-- After the inputs: the age of the outputs, the signatures. -/
  after : List BlockEntry → Transaction → UInt64 → List (List PublicKey) → Bool

structure InputAnswer where
  verdict : Bool
  maxUsedBlockHeight : UInt64
  maxUsedBlockId : Hash
  deriving DecidableEq

def haveKeyImage (entries : List BlockEntry) (kImage : PublicKey) : Bool :=
  entries.any fun e => e.allTxs.any fun tx => kImage ∈ tx.keyImages

section
variable (cfg : Config) (rules : InputRules) (entries : List BlockEntry) (now : UInt64) (tx : Transaction)

def checkInputsFrom : Nat → List TxIn → UInt64 → List (List PublicKey) → Bool × UInt64
  | _, [], height, rings => (rules.after entries tx height rings, height)
  | index, .toKey amount keyOffsets kImage :: ins, height, rings =>
    if keyOffsets.isEmpty || haveKeyImage entries kImage || !rules.signed tx index then (false, height)
    else
      match checkTxInput cfg entries now .empty (rules.prefixHash tx) amount keyOffsets kImage with
      | none => (false, height)
      | some scan =>
        let height := if height < scan.relatedHeight then scan.relatedHeight else height
        if rules.ring tx index scan.keys then
          checkInputsFrom (index + 1) ins height (rings ++ [scan.keys])
        else (false, height)
  | _, _ :: _, height, _ => (false, height)

def checkInputs : Bool × UInt64 :=
  if tx.pruned then (true, 0)
  else if rules.before entries tx then checkInputsFrom cfg rules entries now tx 0 tx.vin 0 []
  else (false, 0)

end

/-- With the height and the id returned by reference. The id stays the caller's where the
transaction is refused. -/
def Blockchain.checkTxInputs (cfg : Config) (rules : InputRules) (now : UInt64) (st : Blockchain)
    (tx : Transaction) (id : Hash) (keptByBlock : Bool) : InputAnswer :=
  if st.db.entries.length < st.blocksHashCheck.length ∧ keptByBlock then
    { verdict := true, maxUsedBlockHeight := 0, maxUsedBlockId := nullHash }
  else
    let (verdict, height) := checkInputs cfg rules st.db.entries now tx
    if verdict && height < st.db.height then
      { verdict := true, maxUsedBlockHeight := height
        maxUsedBlockId := (st.db.getBlockHashFromHeight height).getD id }
    else { verdict := false, maxUsedBlockHeight := height, maxUsedBlockId := id }

def ClockQuiet (cfg : Config) (entries : List BlockEntry) (now now' : UInt64) : Prop :=
  ∀ e ∈ entries, ∀ tx ∈ e.allTxs,
    isTxSpendtimeUnlocked cfg (UInt64.ofNat entries.length) now tx.unlockTime =
      isTxSpendtimeUnlocked cfg (UInt64.ofNat entries.length) now' tx.unlockTime

section
variable {cfg : Config} {rules : InputRules} {entries : List BlockEntry} {now now' : UInt64}
  {tx : Transaction} {amount : UInt64} {outputs : List OutputData} {offsets : List UInt64}

theorem mem_getOutputKeys {out : OutputData} (h : out ∈ getOutputKeys entries amount offsets) :
    ∃ i, getOutputKey entries amount i = some out := by
  induction offsets with
  | nil => cases h
  | cons i is ih =>
    unfold getOutputKeys at h
    split at h
    · rename_i first hf
      rcases mem_cons.mp h with rfl | hr
      · exact ⟨i, hf⟩
      · exact ih hr
    · cases h

section
variable (h : ClockQuiet cfg entries now now')
include h

theorem ClockQuiet.unlocked {out : OutputData} {i : UInt64} (ho : getOutputKey entries amount i = some out) :
    isTxSpendtimeUnlocked cfg (UInt64.ofNat entries.length) now out.unlockTime =
      isTxSpendtimeUnlocked cfg (UInt64.ofNat entries.length) now' out.unlockTime := by
  obtain ⟨e, he, tx, ht, _, _, _, hu⟩ := getOutputKey_created ho
  rw [hu]
  exact h e he tx ht

theorem handleOutputs_clock (ho : ∀ out ∈ outputs, ∃ i, getOutputKey entries amount i = some out) (scan : RingScan) :
    handleOutputs cfg entries now amount outputs offsets scan =
      handleOutputs cfg entries now' amount outputs offsets scan := by
  induction offsets generalizing outputs scan with
  | nil => simp [handleOutputs]
  | cons i is ih =>
    have ht : ∀ out ∈ outputs.tail, ∃ i, getOutputKey entries amount i = some out := by
      intro out hu
      exact ho out (mem_of_mem_tail hu)
    unfold handleOutputs
    cases hn : outputs.head?.or (getOutputKey entries amount i) with
    | none => rfl
    | some out =>
      have hc : ∃ j, getOutputKey entries amount j = some out := by
        rcases Option.or_eq_some_iff.mp hn with hh | ⟨_, hr⟩
        · exact ho out (List.mem_of_head? hh)
        · exact ⟨i, hr⟩
      obtain ⟨j, hj⟩ := hc
      simp only [h.unlocked hj, ih ht]

theorem checkTxInput_clock (txPrefixHash : Hash) (keyOffsets : List UInt64) (kImage : PublicKey) :
    checkTxInput cfg entries now .empty txPrefixHash amount keyOffsets kImage =
      checkTxInput cfg entries now' .empty txPrefixHash amount keyOffsets kImage := by
  have hs : scanOutputkeysForIndexes cfg entries now .empty txPrefixHash amount keyOffsets kImage =
      scanOutputkeysForIndexes cfg entries now' .empty txPrefixHash amount keyOffsets kImage := by
    unfold scanOutputkeysForIndexes
    split
    · rfl
    · dsimp only [collectOutputs, ScanTable.empty]
      split
      · rfl
      · exact handleOutputs_clock h (fun out ho => mem_getOutputKeys ho) _
  simp only [checkTxInput, hs]

theorem checkInputsFrom_clock {index : Nat} {ins : List TxIn} {height : UInt64} {rings : List (List PublicKey)} :
    checkInputsFrom cfg rules entries now tx index ins height rings =
      checkInputsFrom cfg rules entries now' tx index ins height rings := by
  induction ins generalizing index height rings with
  | nil => rfl
  | cons i ins ih =>
    cases i with
    | toKey amount keyOffsets kImage =>
      simp only [checkInputsFrom, checkTxInput_clock h, ih]
    | _ => rfl

theorem checkInputs_clock : checkInputs cfg rules entries now tx = checkInputs cfg rules entries now' tx := by
  simp only [checkInputs, checkInputsFrom_clock h]

end

end

/-- An entry of `m_input_cache`; `askedAt` is not in the source. -/
structure CachedAnswer where
  answer : InputAnswer
  askedAt : UInt64
  deriving DecidableEq

abbrev InputCache := Hash → Option CachedAnswer

def InputCache.empty : InputCache := fun _ => none

/-- A node with its cache. `saved` is the state an aborted batch goes back to. -/
structure CachingNode where
  chain : Blockchain
  inputCache : InputCache
  saved : Option Blockchain

inductive CacheOp where
  | node (op : NodeOp)
  | batchStart
  | batchStop
  /-- `batch_abort`, or a `batch_stop` whose commit throws. -/
  | batchAbort
  | checkTxInputs (now : UInt64) (tx : Transaction) (id : Hash) (keptByBlock : Bool)

def NodeOp.notifies (env : Env) (fuel : Nat) (st : Blockchain) : NodeOp → Bool
  | .handle now b =>
    match handleBlockToMainChain env fuel now st b with
    | .added _ => true
    | _ => false
  | .pop => true
  | _ => false

namespace CachingNode

/-- `tx_memory_pool::check_tx_inputs`. `id` is what the caller has for the id. -/
def checkTxInputs (cfg : Config) (rules : InputRules) (now : UInt64) (n : CachingNode) (tx : Transaction)
    (id : Hash) (keptByBlock : Bool) : InputAnswer × CachingNode :=
  if keptByBlock then (n.chain.checkTxInputs cfg rules now tx id true, n)
  else
    match n.inputCache tx.hash with
    | some cached => (cached.answer, n)
    | none =>
      let answer := n.chain.checkTxInputs cfg rules now tx id false
      let cached : CachedAnswer := { answer, askedAt := now }
      (answer, { n with inputCache := fun k => if k = tx.hash then some cached else n.inputCache k })

def step (env : Env) (rules : InputRules) (fuel : Nat) (n : CachingNode) : CacheOp → Option CachingNode
  | .node op => (nodeStep env fuel n.chain op).map fun st =>
    { n with
      chain := st
      inputCache := if op.notifies env fuel n.chain then .empty else n.inputCache }
  | .batchStart => some { n with saved := n.saved.or (some n.chain) }
  | .batchStop => some { n with saved := none }
  | .batchAbort => n.saved.map fun st =>
    { n with
      chain := { n.chain with db := st.db, altBlocks := st.altBlocks, pool := st.pool }
      saved := none }
  | .checkTxInputs now tx id keptByBlock =>
    some (n.checkTxInputs env.cfg rules now tx id keptByBlock).2

/-- An aborted batch has not changed the main chain, or nothing is cached since it did. -/
def AbortsClean (n : CachingNode) : CacheOp → Prop
  | .batchAbort => ∀ st, n.saved = some st → st.db = n.chain.db ∨ n.inputCache = .empty
  | _ => True

def Named (txOf : Hash → Transaction) : CacheOp → Prop
  | .checkTxInputs _ tx _ _ => txOf tx.hash = tx
  | _ => True

/-- Every cached answer is what the blockchain would have answered on the present chain. -/
def Current (cfg : Config) (rules : InputRules) (txOf : Hash → Transaction) (n : CachingNode) : Prop :=
  ∀ txid cached, n.inputCache txid = some cached →
    ∃ id, cached.answer = n.chain.checkTxInputs cfg rules cached.askedAt (txOf txid) id false

end CachingNode

section
variable {env : Env} {cfg : Config} {rules : InputRules} {fuel : Nat} {txOf : Hash → Transaction}
  {st st' : Blockchain} {op : NodeOp} {n n' : CachingNode} {tx : Transaction} {now : UInt64}

theorem nodeStep_db (hs : nodeStep env fuel st op = some st')
    (hq : op.notifies env fuel st = false) : st'.db = st.db := by
  cases op with
  | handle now b =>
    cases hs
    apply (handle_not_added _).1
    intro st' ha
    simp [NodeOp.notifies, ha] at hq
  | pop => cases hq
  | store b =>
    obtain ⟨chain, ab, hr⟩ := nodeStep_store.mp hs
    obtain ⟨_, _, _, _, ho⟩ := storeAlternative_eq_ok hr
    rw [ho.state]
    rfl
  | removeAlt id =>
    cases hs
    rfl
  | touch pool invalidBlocks blocksTxsCheck =>
    cases hs
    rfl

theorem checkTxInputs_of_db (hd : st'.db = st.db) (id : Hash) :
    st'.checkTxInputs cfg rules now tx id false = st.checkTxInputs cfg rules now tx id false := by
  simp [Blockchain.checkTxInputs, hd]

namespace CachingNode

theorem Current.of_db (h : n.Current cfg rules txOf) (hd : n'.chain.db = n.chain.db)
    (hcc : n'.inputCache = n.inputCache) : n'.Current cfg rules txOf := by
  intro txid cached hc
  rw [hcc] at hc
  obtain ⟨id, ha⟩ := h txid cached hc
  exact ⟨id, ha.trans (checkTxInputs_of_db hd id).symm⟩

theorem current_of_empty (hcc : n.inputCache = .empty) : n.Current cfg rules txOf := by
  intro txid cached hc
  rw [hcc] at hc
  cases hc

theorem Current.checkTxInputs (h : n.Current cfg rules txOf) (hn : txOf tx.hash = tx) (id : Hash)
    (keptByBlock : Bool) : (n.checkTxInputs cfg rules now tx id keptByBlock).2.Current cfg rules txOf := by
  unfold CachingNode.checkTxInputs
  split
  · exact h
  · split
    · exact h
    · intro txid cached hc
      by_cases ht : txid = tx.hash
      · subst ht
        simp only [if_true, Option.some.injEq] at hc
        subst hc
        rw [hn]
        exact ⟨id, rfl⟩
      · simp only [ht, if_false] at hc
        exact h txid cached hc

theorem Current.step {op : CacheOp} (h : n.Current env.cfg rules txOf) (hc : n.AbortsClean op)
    (ha : Named txOf op) (hs : n.step env rules fuel op = some n') : n'.Current env.cfg rules txOf := by
  cases op with
  | node op =>
    obtain ⟨st, ht, rfl⟩ := Option.map_eq_some_iff.mp hs
    by_cases hn : op.notifies env fuel n.chain = true
    · exact current_of_empty (by simp [hn])
    · have hq : op.notifies env fuel n.chain = false := by simpa using hn
      exact h.of_db (nodeStep_db ht hq) (by simp [hq])
  | batchStart =>
    cases hs
    exact h.of_db rfl rfl
  | batchStop =>
    cases hs
    exact h.of_db rfl rfl
  | batchAbort =>
    obtain ⟨st, hsa, rfl⟩ := Option.map_eq_some_iff.mp hs
    rcases hc st hsa with hd | hem
    · exact h.of_db hd rfl
    · exact current_of_empty hem
  | checkTxInputs now tx id keptByBlock =>
    cases hs
    exact h.checkTxInputs ha id keptByBlock

end CachingNode

end

section
variable {env : Env} {cfg : Config} {rules : InputRules} {fuel : Nat} {txOf : Hash → Transaction}
  {S : Block → Prop} {st st' : Blockchain} {n n₀ : CachingNode} {tx : Transaction} {now now' : UInt64}

/-- The same answer, but that a refused transaction has no id. -/
structure InputAnswer.Agrees (a d : InputAnswer) : Prop where
  verdict : a.verdict = d.verdict
  height : a.maxUsedBlockHeight = d.maxUsedBlockHeight
  id : d.verdict = true → a.maxUsedBlockId = d.maxUsedBlockId

theorem checkTxInputs_agrees (h : ClockQuiet cfg st.db.entries now now') (id id' : Hash) :
    (st.checkTxInputs cfg rules now tx id false).Agrees (st.checkTxInputs cfg rules now' tx id' false) := by
  unfold Blockchain.checkTxInputs
  simp only [Bool.false_eq_true, and_false, if_false, checkInputs_clock h]
  rcases checkInputs cfg rules st.db.entries now' tx with ⟨verdict, height⟩
  by_cases hg : (verdict && decide (height < st.db.height)) = true
  · have hl : height.toNat < st.db.entries.length := by
      simp only [Bool.and_eq_true, decide_eq_true_eq, UInt64.lt_iff_toNat_lt, Db.height_toNat] at hg
      exact hg.2
    have ht : ∃ hash, st.db.getBlockHashFromHeight height = some hash := by
      simp [Db.getBlockHashFromHeight, Db.entryAt, hl]
    obtain ⟨hash, hh⟩ := ht
    simp only [if_pos hg, hh, Option.getD_some]
    exact ⟨rfl, rfl, fun _ => rfl⟩
  · simp only [if_neg hg]
    exact ⟨rfl, rfl, fun hr => by cases hr⟩

theorem current_of_run {ops : List CacheOp} (h₀ : n₀.inputCache = .empty)
    (hc : EveryStep (CachingNode.step env rules fuel) CachingNode.AbortsClean n₀ ops)
    (hnm : ∀ op ∈ ops, CachingNode.Named txOf op)
    (hr : run (CachingNode.step env rules fuel) n₀ ops = some n) : n.Current env.cfg rules txOf := by
  apply run_invariant _ (CachingNode.current_of_empty h₀) (hc.and_forall hnm) hr
  intro n op n' hn ho hs
  exact hn.step ho.1 ho.2 hs

theorem caching_run {ops : List NodeOp} (hr : run (nodeStep env fuel) n.chain ops = some st') :
    ∃ n', run (CachingNode.step env rules fuel) n (ops.map .node) = some n' ∧ n'.chain = st' := by
  induction ops generalizing n with
  | nil =>
    cases hr
    exact ⟨n, rfl, rfl⟩
  | cons op ops ih =>
    obtain ⟨st₁, hs, hre⟩ := run_cons_eq_some.mp hr
    let n₁ : CachingNode :=
      { n with
        chain := st₁
        inputCache := if op.notifies env fuel n.chain then .empty else n.inputCache }
    have hf : n.step env rules fuel (.node op) = some n₁ := by
      simp [CachingNode.step, hs, n₁]
    obtain ⟨n', hr', hc⟩ := @ih n₁ hre
    exact ⟨n', run_cons_eq_some.mpr ⟨n₁, hf, hr'⟩, hc⟩

theorem CachingNode.Current.through_addNewBlock {b : Block} {depth : Nat} (h : n.Current env.cfg rules txOf) :
    ∃ (ops : List NodeOp) (n' : CachingNode), run (CachingNode.step env rules fuel) n (ops.map .node) = some n' ∧
      n'.chain = Gyro.addNewBlock env fuel depth now n.chain b ∧ n'.Current env.cfg rules txOf := by
  obtain ⟨ops, hr, _⟩ := (@addNewBlock_steps env fuel now (fun _ => True) n.chain b ⟨by simp, by simp⟩ trivial depth).1
  obtain ⟨n', hr', hc⟩ := @caching_run env rules fuel _ n ops hr
  refine ⟨ops, n', hr', hc, ?_⟩
  have ho : ∀ op ∈ ops.map CacheOp.node, ∃ o, op = .node o := by
    intro op hp
    obtain ⟨o, _, rfl⟩ := mem_map.mp hp
    exact ⟨o, rfl⟩
  apply Reaches.preserves ⟨_, hr', ho⟩ _ h
  rintro n _ n' hn ⟨o, rfl⟩ hsp
  have hl : n.AbortsClean (.node o) := trivial
  exact hn.step hl trivial hsp

/-- Whenever the pool answers from its cache, verdict and height are what the blockchain would
answer now, and so is the id of a transaction that passes. -/
theorem input_cache_transparent {ops : List CacheOp} {cached : CachedAnswer} (h₀ : n₀.inputCache = .empty)
    (hclean : EveryStep (CachingNode.step env rules fuel) CachingNode.AbortsClean n₀ ops)
    (hnamed : ∀ op ∈ ops, CachingNode.Named txOf op)
    (hrun : run (CachingNode.step env rules fuel) n₀ ops = some n) (hname : txOf tx.hash = tx)
    (hcached : n.inputCache tx.hash = some cached) (id : Hash)
    (hclock : ClockQuiet env.cfg n.chain.db.entries cached.askedAt now) :
    (n.checkTxInputs env.cfg rules now tx id false).1.Agrees
      (n.chain.checkTxInputs env.cfg rules now tx id false) := by
  obtain ⟨id₀, ha⟩ := current_of_run h₀ hclean hnamed hrun tx.hash cached hcached
  have hf : (n.checkTxInputs env.cfg rules now tx id false).1 = cached.answer := by
    simp [CachingNode.checkTxInputs, hcached]
  rw [hf, ha, hname]
  exact checkTxInputs_agrees hclock id₀ id

end

namespace Sample

def lenientRules : InputRules where
  prefixHash := (·.hash)
  before _ _ := true
  signed _ _ := true
  ring _ _ _ := true
  after _ _ _ _ := true

def richBlocks (low count : Nat) : List CacheOp :=
  (List.range count).map fun h =>
    .node (.handle 1000000 (richBlock (low + h) (if low + h = 0 then 0xffffffffffffff9b else 0) []))

def cachingNode : CachingNode := { chain := node, inputCache := .empty, saved := none }

def askBurning : CacheOp := .checkTxInputs 1000000 burning nullHash false

def unlockingOps : List CacheOp := .batchStart :: richBlocks 0 60 ++ [askBurning, .batchStop]

theorem unlockingOps_plain {op : CacheOp} (h : op ∈ unlockingOps) :
    (∀ n : CachingNode, n.AbortsClean op) ∧ CachingNode.Named (fun _ => burning) op := by
  simp only [unlockingOps, cons_append, mem_cons, mem_append, richBlocks, mem_map, not_mem_nil, or_false] at h
  rcases h with rfl | ⟨k, _, rfl⟩ | rfl | rfl
  · exact ⟨fun _ => trivial, trivial⟩
  · exact ⟨fun _ => trivial, trivial⟩
  · exact ⟨fun _ => trivial, rfl⟩
  · exact ⟨fun _ => trivial, trivial⟩

end Sample

open Sample

theorem clockQuiet_of_heights {cfg : Config} {entries : List BlockEntry} {now now' : UInt64}
    (h : (entries.all fun e => e.allTxs.all fun tx => tx.unlockTime < cryptonoteMaxBlockNumber) = true) :
    ClockQuiet cfg entries now now' := by
  intro e he tx ht
  simp only [all_eq_true, decide_eq_true_eq] at h
  simp [isTxSpendtimeUnlocked, h e he tx ht]

theorem current_after_first_block : ∃ (ops : List NodeOp) (n : CachingNode),
    run (CachingNode.step (env richConfig) lenientRules 2) cachingNode (ops.map .node) = some n ∧
      n.chain = addNewBlock (env richConfig) 2 1 0 node (startBlock richConfig 0) ∧
      n.Current richConfig lenientRules fun _ => burning :=
  (CachingNode.current_of_empty rfl).through_addNewBlock

/-- A transaction that spends the first output is asked for again a day later. -/
theorem input_cache_transparent_day_later :
    ∃ n, run (CachingNode.step (env richConfig) lenientRules 2) cachingNode unlockingOps = some n ∧
      (n.inputCache burning.hash).any (·.answer.verdict) = true ∧
      (n.checkTxInputs richConfig lenientRules 1086400 burning 5 false).1.Agrees
        (n.chain.checkTxInputs richConfig lenientRules 1086400 burning 5 false) := by
  have hv : ((run (CachingNode.step (env richConfig) lenientRules 2) cachingNode unlockingOps).map
      fun n => decide ((n.inputCache burning.hash).any (·.answer.verdict) = true ∧
        (n.chain.db.entries.all fun e => e.allTxs.all fun tx =>
          tx.unlockTime < cryptonoteMaxBlockNumber) = true)) = some true := by
    decide +kernel
  obtain ⟨n, hr, hf⟩ := Option.map_eq_some_iff.mp hv
  obtain ⟨hc, hh⟩ := of_decide_eq_true hf
  obtain ⟨cached, hl, _⟩ := (Option.any_eq_true _ _).mp hc
  refine ⟨n, hr, hc, ?_⟩
  exact @input_cache_transparent (env richConfig) lenientRules 2 (fun _ => burning) n cachingNode burning
    1086400 unlockingOps cached rfl (everyStep_of_forall fun op ho n => (unlockingOps_plain ho).1 n)
    (fun op ho => (unlockingOps_plain ho).2) hr rfl hl 5 (clockQuiet_of_heights hh)

/-- A refused transaction comes back with the id of another caller, and the answer given in an
aborted batch stays. -/
theorem cached_id_of_other_caller : (∃ n, run (CachingNode.step (env richConfig) lenientRules 2) cachingNode
        (richBlocks 0 2 ++ [askBurning]) = some n ∧
      (n.checkTxInputs richConfig lenientRules 1000000 burning 5 false).1 = ⟨false, 0, nullHash⟩ ∧
      n.chain.checkTxInputs richConfig lenientRules 1000000 burning 5 false = ⟨false, 0, 5⟩) ∧
    ∃ n, run (CachingNode.step (env richConfig) lenientRules 2) cachingNode
        (richBlocks 0 59 ++ .batchStart :: richBlocks 59 1 ++ [askBurning, .batchAbort]) = some n ∧
      (n.checkTxInputs richConfig lenientRules 1000000 burning nullHash false).1.verdict = true ∧
      (n.chain.checkTxInputs richConfig lenientRules 1000000 burning nullHash false).verdict = false := by
  constructor
  · have hv : ((run (CachingNode.step (env richConfig) lenientRules 2) cachingNode
        (richBlocks 0 2 ++ [askBurning])).map fun n => decide (
      (n.checkTxInputs richConfig lenientRules 1000000 burning 5 false).1 = ⟨false, 0, nullHash⟩ ∧
      n.chain.checkTxInputs richConfig lenientRules 1000000 burning 5 false = ⟨false, 0, 5⟩)) =
        some true := by
      decide +kernel
    obtain ⟨n, hr, hf⟩ := Option.map_eq_some_iff.mp hv
    exact ⟨n, hr, of_decide_eq_true hf⟩
  · have hv : ((run (CachingNode.step (env richConfig) lenientRules 2) cachingNode
        (richBlocks 0 59 ++ .batchStart :: richBlocks 59 1 ++ [askBurning, .batchAbort])).map fun n => decide (
        (n.checkTxInputs richConfig lenientRules 1000000 burning nullHash false).1.verdict = true ∧
        (n.chain.checkTxInputs richConfig lenientRules 1000000 burning nullHash false).verdict =
          false)) = some true := by
      decide +kernel
    obtain ⟨n, hr, hf⟩ := Option.map_eq_some_iff.mp hv
    exact ⟨n, hr, of_decide_eq_true hf⟩

end Gyro
