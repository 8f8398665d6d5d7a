import Gyro.TxPool
import Gyro.Lib.Runs
import Mathlib.Data.UInt

/-!
# The accounts of the pool

The total weight and the ordered set against the records in the database. Adding a
transaction that is already there adds its weight again.
-/

namespace Gyro

open Keyed InvertedIndex Runs List

namespace TxPool

structure WeightOk (p : TxPool) : Prop where
  keys : (p.stored.map PooledTx.id).Nodup
  weights : p.weight = (p.stored.map (·.info.weight)).sum
  recorded : ∀ r ∈ p.stored, r.info.weight = r.tx.weight

structure SortedOk (p : TxPool) : Prop where
  once : (p.sorted.map (·.id)).Nodup
  entries : ∀ id, id ∈ p.sorted.map (·.id) ↔ id ∈ p.stored.map PooledTx.id

structure Accounted (p : TxPool) : Prop where
  weight : p.WeightOk
  order : p.SortedOk

def dropRecords (weight : PooledTx → UInt64) (p : TxPool) (rs : List PooledTx) : TxPool :=
  rs.foldl (fun p r => p.removeRecord r (weight r)) p

def dropSorted (sorted : List SortedEntry) (rs : List PooledTx) : List SortedEntry :=
  rs.foldl (fun sorted r => eraseSorted sorted r.id) sorted

section
variable {p : TxPool} {r : PooledTx} {rs : List PooledTx} {sorted : List SortedEntry} {e : SortedEntry}
  {id : Hash} {weight : PooledTx → UInt64}

/-! ## The ordered set -/

section
variable (h : (sorted.map (·.id)).Nodup)
include h

theorem eraseSorted_eq_without : eraseSorted sorted id = without SortedEntry.id sorted id := by
  induction sorted with
  | nil => rfl
  | cons x xs ih =>
    rw [map_cons, nodup_cons] at h
    by_cases hx : x.id = id
    · have hr : find SortedEntry.id xs id = none := by
        rw [find_eq_none_iff, ← hx]
        exact h.1
      have hi := (without_of_find_none hr).symm
      simpa [eraseSorted, without, hx] using hi
    · have ht := ih h.2
      simpa [eraseSorted, without, hx] using ht

theorem erase_eq_without (he : e ∈ sorted) : sorted.erase e = without SortedEntry.id sorted e.id := by
  rw [h.of_map.erase_eq_filter]
  apply filter_congr
  intro x hx
  rw [Bool.eq_iff_iff]
  simp only [bne_iff_ne, decide_eq_true_eq]
  constructor
  · intro hn hi
    exact hn (inj_on_of_nodup_map h hx he hi)
  · rintro hn rfl
    exact hn rfl

theorem dropSorted_spec : ((dropSorted sorted rs).map (·.id)).Nodup ∧ ∀ id, id ∈ (dropSorted sorted rs).map (·.id) ↔
        id ∈ sorted.map (·.id) ∧ id ∉ rs.map PooledTx.id := by
  induction rs generalizing sorted with
  | nil => exact ⟨h, by simp [dropSorted]⟩
  | cons r rs ih =>
    have hn : ((eraseSorted sorted r.id).map (·.id)).Nodup := by
      rw [eraseSorted_eq_without h]
      exact nodup_without h
    obtain ⟨hr, hme⟩ := ih hn
    refine ⟨hr, ?_⟩
    intro id
    rw [show dropSorted sorted (r :: rs) = dropSorted (eraseSorted sorted r.id) rs from rfl, hme,
      eraseSorted_eq_without h, mem_map_without]
    simp only [map_cons, mem_cons, not_or]
    tauto

end

theorem insertSorted_perm (h : e ∉ sorted) : (insertSorted sorted e).Perm (e :: sorted) := by
  unfold insertSorted
  rw [if_neg h]
  have hp : (sorted.takeWhile (·.precedes e) ++ e :: sorted.dropWhile (·.precedes e)).Perm
      (e :: (sorted.takeWhile (·.precedes e) ++ sorted.dropWhile (·.precedes e))) := perm_middle
  rwa [takeWhile_append_dropWhile] at hp

theorem mem_insertSorted : id ∈ (insertSorted sorted e).map (·.id) ↔ id ∈ sorted.map (·.id) ∨ id = e.id := by
  by_cases he : e ∈ sorted
  · unfold insertSorted
    rw [if_pos he]
    constructor
    · exact .inl
    · rintro (hi | rfl)
      · exact hi
      · exact mem_map_of_mem he
  · rw [((insertSorted_perm he).map _).mem_iff, map_cons, mem_cons, or_comm]

theorem nodup_insertSorted (h : (sorted.map (·.id)).Nodup) (hf : e.id ∉ sorted.map (·.id)) :
    ((insertSorted sorted e).map (·.id)).Nodup := by
  have he : e ∉ sorted := fun he => hf (mem_map_of_mem he)
  rw [((insertSorted_perm he).map _).nodup_iff, map_cons, nodup_cons]
  exact ⟨hf, h⟩

theorem lookup_eq_some (h : p.WeightOk) : p.lookup id = some r ↔ r ∈ p.stored ∧ r.id = id :=
  find_eq_some_iff h.keys

theorem WeightOk.removeRecord (h : p.WeightOk) (hr : r ∈ p.stored) : (p.removeRecord r r.info.weight).WeightOk := by
  have hf := (lookup_eq_some h).mpr ⟨hr, rfl⟩
  constructor
  · exact nodup_without h.keys
  · have hs := sum_without (fun r => r.info.weight) h.keys hf
    change p.weight - r.info.weight = _
    rw [h.weights, hs]
    exact add_sub_cancel_left _ _
  · intro r' hr'
    exact h.recorded r' (mem_without.mp hr').1

theorem dropRecords_cons : p.dropRecords weight (r :: rs) = (p.removeRecord r (weight r)).dropRecords weight rs := rfl

theorem WeightOk.dropRecords (h : p.WeightOk) (hr : ∀ r ∈ rs, r ∈ p.stored)
    (hk : (rs.map PooledTx.id).Nodup) (hwe : ∀ r ∈ rs, weight r = r.info.weight) :
    (p.dropRecords weight rs).WeightOk ∧ ∀ id, id ∈ (p.dropRecords weight rs).stored.map PooledTx.id ↔
        id ∈ p.stored.map PooledTx.id ∧ id ∉ rs.map PooledTx.id := by
  induction rs generalizing p with
  | nil => exact ⟨h, by simp [TxPool.dropRecords]⟩
  | cons r rs ih =>
    have hp := mem_without_tail hk hr
    rw [map_cons, nodup_cons] at hk
    rw [dropRecords_cons, hwe r mem_cons_self]
    obtain ⟨ho, hme⟩ := ih (h.removeRecord (hr r mem_cons_self)) hp hk.2
      (fun r' hr' => hwe r' (mem_cons_of_mem _ hr'))
    refine ⟨ho, ?_⟩
    intro id
    rw [hme]
    change id ∈ (without PooledTx.id p.stored r.id).map PooledTx.id ∧ _ ↔ _
    rw [mem_map_without, map_cons, mem_cons]
    tauto

theorem Accounted.drop (h : p.Accounted) (hr : ∀ r ∈ rs, r ∈ p.stored)
    (hk : (rs.map PooledTx.id).Nodup) (hwe : ∀ r ∈ rs, weight r = r.info.weight)
    {p' : TxPool} (hs : p'.stored = (p.dropRecords weight rs).stored)
    (hw : p'.weight = (p.dropRecords weight rs).weight) (hso : p'.sorted = dropSorted p.sorted rs) : p'.Accounted := by
  obtain ⟨ho, hme⟩ := h.weight.dropRecords hr hk hwe
  obtain ⟨hn, hen⟩ := @dropSorted_spec rs _ h.order.once
  constructor
  · constructor
    · rw [hs]
      exact ho.keys
    · rw [hw, hs]
      exact ho.weights
    · rw [hs]
      exact ho.recorded
  · constructor
    · rw [hso]
      exact hn
    · intro id
      rw [hso, hs, hen, hme, h.order.entries]

theorem Accounted.removeRecord (h : p.Accounted) (hr : r ∈ p.stored) :
    { p.removeRecord r r.info.weight with sorted := eraseSorted p.sorted r.id }.Accounted := by
  have hs : ∀ r' ∈ [r], r' ∈ p.stored := by simpa using hr
  exact h.drop hs (by simp) (fun _ _ => rfl) rfl rfl rfl

theorem dropRecords_with (sorted : List SortedEntry) (timedOut : List Hash) :
    { p with sorted, timedOut }.dropRecords weight rs =
      { p.dropRecords weight rs with sorted, timedOut } := by
  induction rs generalizing p with
  | nil => rfl
  | cons r rs ih =>
    rw [dropRecords_cons, dropRecords_cons, ← ih]
    rfl

theorem dropRecords_timedOut : (p.dropRecords weight rs).timedOut = p.timedOut := by
  induction rs generalizing p with
  | nil => rfl
  | cons r rs ih => exact ih

def stuckGone (env : PoolEnv) (db : DbThrows) (p : TxPool) : List PooledTx :=
  (p.stuck env).filter fun r => !(db.read r.id || db.write r.id)

theorem foldl_removeStuck (db : DbThrows) : rs.foldl (removeStuck db) p =
    p.dropRecords (·.info.weight) (rs.filter fun r => !(db.read r.id || db.write r.id)) := by
  induction rs generalizing p with
  | nil => rfl
  | cons r rs ih =>
    rw [foldl_cons, ih]
    by_cases ht : (db.read r.id || db.write r.id) = true
    · simp only [removeStuck, ht, if_true, filter_cons, Bool.not_true, Bool.false_eq_true, if_false]
    · simp only [removeStuck, ht, filter_cons]
      rfl

theorem removeStuckTransactions_eq (env : PoolEnv) (db : DbThrows) (p : TxPool) :
    p.removeStuckTransactions env db = { p.dropRecords (·.info.weight) (p.stuckGone env db) with
        stored := commit db p.stored (p.dropRecords (·.info.weight) (p.stuckGone env db)).stored
        sorted := dropSorted p.sorted (p.stuck env)
        timedOut := (p.stuck env).map (·.id) ++ p.timedOut } := by
  simp only [removeStuckTransactions, foldl_removeStuck, dropRecords_with]
  rfl

def invalidGone (env : PoolEnv) (db : DbThrows) (version : UInt8) (p : TxPool) : List PooledTx :=
  (p.invalid env version).filter fun r => !(db.read r.id || r.info.pruned || db.write r.id)

theorem foldl_removeInvalid (db : DbThrows) (gone : List PooledTx)
    (hg : gone = rs.filter fun r => !(db.read r.id || r.info.pruned || db.write r.id)) :
    rs.foldl (removeInvalid db) p =
      { p.dropRecords (·.tx.weight) gone with sorted := dropSorted p.sorted gone } := by
  subst hg
  induction rs generalizing p with
  | nil => rfl
  | cons r rs ih =>
    rw [foldl_cons, ih]
    by_cases ht : (db.read r.id || r.info.pruned || db.write r.id) = true
    · simp only [removeInvalid, ht, if_true, filter_cons, Bool.not_true, Bool.false_eq_true, if_false]
    · simp only [removeInvalid, ht, Bool.false_eq_true, if_false, filter_cons, Bool.not_false, if_true]
      have hi := @dropRecords_timedOut (p.removeRecord r r.tx.weight)
        (rs.filter fun r => !(db.read r.id || r.info.pruned || db.write r.id)) (·.tx.weight)
      rw [@dropRecords_with (p.removeRecord r r.tx.weight)]
      rw [← hi]
      rfl

theorem validate_eq (env : PoolEnv) (db : DbThrows) (version : UInt8) (p q : TxPool)
    (hq : q = { p with weight := (p.stored.map (·.info.weight)).foldl (· + ·) 0 }) :
    p.validate env db version =
      { q.dropRecords (·.tx.weight) (p.invalidGone env db version) with
        stored := commit db p.stored
          (q.dropRecords (·.tx.weight) (p.invalidGone env db version)).stored
        sorted := dropSorted p.sorted (p.invalidGone env db version) } := by
  subst hq
  simp only [validate, foldl_removeInvalid db (p.invalidGone env db version) rfl]

end

section
variable {p : TxPool} {db : DbThrows} {bytes : UInt64} {todo : List SortedEntry}

/-- What every removal keeps holds at the end if nothing throws and every entry has its record. -/
theorem pruneLoop_rule {I : TxPool → Prop} (hd : ∀ id, db.read id = false)
    (hwrite : ∀ id, db.write id = false) (hf : ∀ p e, I p → e ∈ p.sorted → ∃ r, p.lookup e.id = some r)
    (hrm : ∀ p e r, I p → e ∈ p.sorted → p.lookup e.id = some r → r.keptByBlock = false →
      I { p.removeRecord r r.info.weight with sorted := p.sorted.erase e })
    (ht : todo.Nodup) (hi : ∀ e ∈ todo, e ∈ p.sorted) (hp : I p) :
    (pruneLoop db bytes todo p).1 = true ∧ I (pruneLoop db bytes todo p).2 := by
  induction todo generalizing p with
  | nil => exact ⟨rfl, hp⟩
  | cons e todo ih =>
    rw [nodup_cons] at ht
    have he := hi e mem_cons_self
    obtain ⟨r, hr⟩ := hf p e hp he
    unfold pruneLoop
    by_cases hwe : p.weight ≤ bytes
    · rw [if_pos hwe]
      exact ⟨rfl, hp⟩
    · simp only [if_neg hwe, hd, hr, hwrite, Bool.false_eq_true, if_false]
      by_cases hk : r.keptByBlock = true
      · rw [if_pos hk]
        exact ih ht.2 (fun e' he' => hi e' (mem_cons_of_mem _ he')) hp
      · rw [if_neg hk]
        apply ih ht.2
        · intro e' he'
          have hn : e' ≠ e := by
            rintro rfl
            exact ht.1 he'
          exact (mem_erase_of_ne hn).mpr (hi e' (mem_cons_of_mem _ he'))
        · exact hrm p e r hp he hr (by simpa using hk)

end

section
variable {p p' : TxPool} {env : PoolEnv} {db : DbThrows} {version : UInt8} {tx : Transaction}
  {relay : RelayMethod} {fee last : UInt64} {replace : Bool}

theorem commit_none (before after : List PooledTx) : commit .none before after = after := rfl

section
variable (h : p.Accounted)
include h

theorem Accounted.of_eq (hs : p'.stored = p.stored) (hwe : p'.weight = p.weight)
    (hso : p'.sorted = p.sorted) : p'.Accounted := by
  obtain ⟨⟨hk, hg, hr⟩, ho, hn⟩ := h
  rw [← hs] at hk hg hr hn
  rw [← hwe] at hg
  rw [← hso] at ho hn
  exact ⟨⟨hk, hg, hr⟩, ho, hn⟩

theorem Accounted.takeTx (id : Hash) : (p.takeTx .none id).2.Accounted := by
  unfold TxPool.takeTx
  simp only [DbThrows.none, Bool.false_eq_true, if_false]
  split
  · exact h
  · rename_i r hr
    obtain ⟨hme, rfl⟩ := (lookup_eq_some h.weight).mp hr
    exact h.removeRecord hme

theorem Accounted.found {e : SortedEntry} (he : e ∈ p.sorted) : ∃ r, p.lookup e.id = some r := by
  obtain ⟨r, hr, hi⟩ := mem_map.mp ((h.order.entries e.id).mp (mem_map_of_mem he))
  exact ⟨r, (lookup_eq_some h.weight).mpr ⟨hr, hi⟩⟩

theorem Accounted.eraseEntry {e : SortedEntry} {r : PooledTx} (he : e ∈ p.sorted)
    (hr : p.lookup e.id = some r) :
    { p.removeRecord r r.info.weight with sorted := p.sorted.erase e }.Accounted := by
  obtain ⟨hme, hi⟩ := (lookup_eq_some h.weight).mp hr
  rw [erase_eq_without h.order.once he, ← hi, ← eraseSorted_eq_without h.order.once]
  exact h.removeRecord hme

theorem Accounted.prune (bytes : UInt64) : (p.prune .none bytes).Accounted := by
  have hn : p.sorted.tail.reverse.Nodup :=
    nodup_reverse.mpr (h.order.once.of_map.sublist (tail_sublist _))
  have hi : ∀ e ∈ p.sorted.tail.reverse, e ∈ p.sorted := by
    intro e he
    exact mem_of_mem_tail (mem_reverse.mp he)
  have hl := @pruneLoop_rule p .none (if bytes = 0 then p.maxWeight else bytes) _ Accounted
    (fun _ => rfl) (fun _ => rfl) ?_ ?_ hn hi h
  · obtain ⟨hd, ho⟩ := hl
    unfold TxPool.prune
    simp only [hd, if_true, commit_none]
    exact ho
  · intro q e hq he
    exact hq.found he
  · intro q e r hq he hr _
    exact hq.eraseEntry he hr

theorem Accounted.removeStuckTransactions (env : PoolEnv) : (p.removeStuckTransactions env .none).Accounted := by
  have hg : p.stuckGone env .none = p.stuck env := filter_eq_self.mpr fun _ _ => rfl
  have hs : (p.stuck env).Sublist p.stored := filter_sublist
  rw [removeStuckTransactions_eq, hg]
  apply h.drop (fun r hr => hs.subset hr) (h.weight.keys.sublist (hs.map _)) (fun _ _ => rfl)
  · rfl
  · rfl
  · rfl

theorem Accounted.validate (env : PoolEnv) (version : UInt8) : (p.validate env .none version).Accounted := by
  have hs : (p.invalidGone env .none version).Sublist p.stored :=
    filter_sublist.trans filter_sublist
  -- the weight counted again is the one there was
  have hc : p = { p with weight := (p.stored.map (·.info.weight)).foldl (· + ·) 0 } := by
    rw [← sum_eq_foldl, ← h.weight.weights]
  rw [validate_eq env .none version p p hc]
  apply h.drop (fun r hr => hs.subset hr) (h.weight.keys.sublist (hs.map _))
  · intro r hr
    exact (h.weight.recorded r (hs.subset hr)).symm
  · rfl
  · rfl
  · rfl

end

variable {method : RelayMethod}

theorem relayed_tx {ids : List Hash} (r : PooledTx) : (relayed env db ids method r).tx = r.tx := by
  unfold relayed
  split <;> rfl

theorem relayed_weight {ids : List Hash} (r : PooledTx) :
    (relayed env db ids method r).info.weight = r.info.weight := by
  unfold relayed
  split <;> rfl

theorem map_id_relayed {ids : List Hash} {method : RelayMethod} (stored : List PooledTx) :
    (stored.map (relayed env db ids method)).map PooledTx.id = stored.map PooledTx.id := by
  rw [map_map]
  exact map_congr_left fun r _ => congrArg Transaction.hash (relayed_tx r)

theorem Accounted.setRelayed (h : p.Accounted) (env : PoolEnv) (ids : List Hash) (method : RelayMethod) :
    (p.setRelayed env .none ids method).Accounted := by
  have hk := @map_id_relayed env .none ids method p.stored
  have hg : (p.stored.map (relayed env .none ids method)).map (·.info.weight) =
      p.stored.map (·.info.weight) := by
    rw [map_map]
    exact map_congr_left fun r _ => relayed_weight r
  constructor
  · constructor
    · exact hk ▸ h.weight.keys
    · exact hg ▸ h.weight.weights
    · intro r' hr'
      obtain ⟨r, hr, rfl⟩ := mem_map.mp hr'
      rw [relayed_weight, relayed_tx]
      exact h.weight.recorded r hr
  · constructor
    · exact h.order.once
    · intro id
      exact hk ▸ h.order.entries id

def withTx (env : PoolEnv) (db : DbThrows) (p : TxPool) (tx : Transaction) (relay : RelayMethod)
    (fee last : UInt64) (images : Index PublicKey Hash) : TxPool :=
  { p with
    stored := commit db p.stored
      (without PooledTx.id p.stored tx.hash ++ [newRecord env tx relay fee last])
    spentKeyImages := images
    sorted := insertSorted p.sorted (sortedEntry env tx fee)
    weight := p.weight + tx.weight }

inductive AddOutcome (env : PoolEnv) (db pruneDb : DbThrows) (p : TxPool) (tx : Transaction)
    (relay : RelayMethod) : TxPool → Prop where
  | refused : AddOutcome env db pruneDb p tx relay p
  | failed (recorded : RelayMethod) (inserted : Bool) (images : Index PublicKey Hash)
      (hblock : recorded = .block ↔ relay = .block)
      (hspent : relay = .block ∨ haveTxKeyimgesAsSpent db p tx = false)
      (hinsert : insertKeyImages db p.stored tx.hash recorded tx.keyImages p.spentKeyImages = (inserted, images))
      (hwhy : inserted = false ∨ db.write tx.hash = true ∨ (p.lookup tx.hash).isSome = true) :
      AddOutcome env db pruneDb p tx relay { p with spentKeyImages := images }
  | there (hthere : (p.lookup tx.hash).isSome = true) :
      AddOutcome env db pruneDb p tx relay
        ({ p with weight := p.weight + tx.weight }.prune pruneDb p.maxWeight)
  | stored (recorded : RelayMethod) (fee last : UInt64) (images : Index PublicKey Hash)
      (hblock : recorded = .block ↔ relay = .block) (hlast : recorded ≠ .block → last = notRelayed)
      (hinsert : insertKeyImages db p.stored tx.hash recorded tx.keyImages p.spentKeyImages = (true, images))
      (hwrite : db.write tx.hash = false) (hfee : feeOf tx = some fee) :
      AddOutcome env db pruneDb p tx relay
        ((p.withTx env db tx recorded fee last images).prune pruneDb p.maxWeight)

def addStored (pruneDb : DbThrows) (tx : Transaction) : Bool × TxPool → TxPool
  | (false, p) => p
  | (true, p) => { p with weight := p.weight + tx.weight }.prune pruneDb p.maxWeight

variable {pruneDb : DbThrows}

theorem storeTx_outcome {recorded : RelayMethod} (hfee : feeOf tx = some fee)
    (hspent : relay = .block ∨ haveTxKeyimgesAsSpent db p tx = false)
    (hblock : recorded = .block ↔ relay = .block) (hlast : recorded ≠ .block → last = notRelayed) :
    AddOutcome env db pruneDb p tx relay (addStored pruneDb tx (storeTx env db p tx recorded fee last replace)) := by
  rcases hinsert : insertKeyImages db p.stored tx.hash recorded tx.keyImages p.spentKeyImages with
    ⟨inserted, images⟩
  unfold storeTx
  simp only [hinsert]
  split
  · rename_i hwhy
    apply AddOutcome.failed recorded inserted images hblock hspent hinsert
    simp only [Bool.or_eq_true, Bool.not_eq_true', Bool.and_eq_true] at hwhy
    rcases hwhy with (hwhy | hwhy) | hwhy
    · exact .inl hwhy
    · exact .inr (.inl hwhy)
    · exact .inr (.inr hwhy.2)
  · rename_i hg
    simp only [Bool.or_eq_true, Bool.not_eq_true', not_or, Bool.not_eq_false, Bool.not_eq_true] at hg
    obtain ⟨⟨rfl, hwrite⟩, _⟩ := hg
    exact AddOutcome.stored recorded fee last images hblock hlast hinsert hwrite hfee

theorem upgrade_none (method : RelayMethod) : (RelayMethod.none.upgrade method).1 = method := by
  cases method <;> rfl

theorem storeChecked_outcome (hfee : feeOf tx = some fee)
    (hspent : relay = .block ∨ haveTxKeyimgesAsSpent db p tx = false) : AddOutcome env db pruneDb p tx relay
      (addStored pruneDb tx (storeChecked env db p tx relay fee)) := by
  unfold storeChecked
  split
  · exact .refused
  · split
    · rw [upgrade_none]
      exact storeTx_outcome hfee hspent Iff.rfl fun _ => rfl
    · rename_i r hr
      have hp : ∀ recorded : RelayMethod, (recorded = .block ↔ relay = .block) →
          AddOutcome env db pruneDb p tx relay (addStored pruneDb tx
            (if (r.info.relayMethod.upgrade recorded).2 then storeTx env db p tx recorded fee notRelayed true
            else (true, p))) := by
        intro recorded hblock
        split
        · exact storeTx_outcome hfee hspent hblock fun _ => rfl
        · apply AddOutcome.there
          rw [hr]
          rfl
      apply hp
      by_cases hs : relay = .stem ∧ r.info.relayMethod = .stem
      · simp [hs]
      · rw [if_neg hs]

theorem addTx_outcome {pruneDb : DbThrows} :
    AddOutcome env db pruneDb p tx relay (p.addTx env db pruneDb version tx relay).2 := by
  unfold addTx
  split
  · exact .refused
  · rename_i fee hfee
    split
    · rename_i hc
      have hspent : relay = .block ∨ haveTxKeyimgesAsSpent db p tx = false := by
        simp only [passesChecks, Bool.and_eq_true, Bool.or_eq_true, decide_eq_true_eq, Bool.not_eq_true'] at hc
        exact hc.1.2
      have hr : ∀ b q, AddOutcome env db pruneDb p tx relay (addStored pruneDb tx (b, q)) →
          AddOutcome env db pruneDb p tx relay
            (if b = true then
              (true, { q with weight := q.weight + tx.weight }.prune pruneDb q.maxWeight)
            else (false, q)).2 := by
        intro b q h
        cases b <;> exact h
      dsimp only
      split
      · exact hr _ _ (storeChecked_outcome hfee hspent)
      · split
        · rename_i hk
          have hlast : relay ≠ .block → env.now = notRelayed := by
            intro hl
            simp [hl] at hk
          exact hr _ _ (storeTx_outcome hfee hspent Iff.rfl hlast)
        · exact hr _ _ .refused
    · exact .refused

theorem addTx_double_spend (hr : relay ≠ .block) (hspent : haveTxKeyimgesAsSpent db p tx = true) :
    (p.addTx env db pruneDb version tx relay).2 = p := by
  have hc : ∀ fee, passesChecks env db version p tx relay fee = false := by
    intro fee
    simp [passesChecks, hr, hspent]
  unfold addTx
  split
  · rfl
  · simp [hc]

variable (h : p.Accounted) (hf : p.lookup tx.hash = none)
include h hf

theorem Accounted.withTx (recorded : RelayMethod) (fee last : UInt64) (images : Index PublicKey Hash) :
    (p.withTx env .none tx recorded fee last images).Accounted := by
  have hn : tx.hash ∉ p.stored.map PooledTx.id := find_eq_none_iff.mp hf
  have hs : (p.withTx env .none tx recorded fee last images).stored =
      p.stored ++ [newRecord env tx recorded fee last] := by
    change without PooledTx.id p.stored tx.hash ++ _ = _
    rw [without_of_find_none hf]
  constructor
  · constructor
    · rw [hs]
      exact nodup_concat h.weight.keys hn
    · rw [hs, map_append, sum_append, ← h.weight.weights]
      simp [TxPool.withTx, newRecord]
    · rw [hs]
      intro r hr
      rcases mem_append.mp hr with hr | hr
      · exact h.weight.recorded r hr
      · rw [mem_singleton.mp hr]
        rfl
  · constructor
    · apply nodup_insertSorted h.order.once
      intro hi
      exact hn ((h.order.entries _).mp hi)
    · intro id
      rw [hs, map_append, mem_append, ← h.order.entries id]
      change id ∈ (insertSorted p.sorted (sortedEntry env tx fee)).map (·.id) ↔ _
      rw [mem_insertSorted]
      simp [sortedEntry, newRecord, PooledTx.id]

theorem Accounted.addTx : (p.addTx env .none .none version tx relay).2.Accounted := by
  have ho := @addTx_outcome p env .none version tx relay .none
  generalize (p.addTx env .none .none version tx relay).2 = q at ho ⊢
  cases ho with
  | refused => exact h
  | failed => exact h.of_eq rfl rfl rfl
  | there hthere =>
    rw [hf] at hthere
    cases hthere
  | stored recorded fee last images => exact (h.withTx hf recorded fee last images).prune _

end

/-- Not `init`, nothing throws, and no transaction that is there is stored again: it is not there,
or its key images refuse it. -/
def AddsOnce (p : TxPool) (c : PoolCall) : Prop :=
  c.db = .none ∧
    match c.op with
    | .addTx _ tx relay pruneDb =>
      pruneDb = .none ∧
        (p.lookup tx.hash = none ∨ relay ≠ .block ∧ haveTxKeyimgesAsSpent .none p tx = true)
    | .init _ => False
    | _ => True

theorem accounted_empty : TxPool.empty.Accounted :=
  ⟨⟨nodup_nil, rfl, by simp [TxPool.empty]⟩, ⟨nodup_nil, fun _ => Iff.rfl⟩⟩

theorem Accounted.call {p p' : TxPool} {c : PoolCall} (h : p.Accounted) (hc : p.AddsOnce c)
    (hs : p.call c = some p') : p'.Accounted := by
  obtain ⟨env, db, op⟩ := c
  obtain ⟨hd, ho⟩ := hc
  subst hd
  cases op with
  | addTx version tx relay pruneDb =>
    obtain ⟨hp, ha⟩ := ho
    subst hp
    cases hs
    rcases ha with hf | ⟨hr, hspent⟩
    · exact h.addTx hf
    · rw [addTx_double_spend hr hspent]
      exact h
  | takeTx id =>
    cases hs
    exact h.takeTx id
  | prune bytes =>
    cases hs
    exact h.prune bytes
  | removeStuckTransactions =>
    cases hs
    exact h.removeStuckTransactions env
  | validate version =>
    cases hs
    exact h.validate env version
  | setRelayed ids method =>
    cases hs
    exact h.setRelayed env ids method
  | init => exact ho.elim

/-- Without a transaction received again, the weight is the sum of the stored weights and each
record has one entry. -/
theorem pool_accounts_exact {calls : List PoolCall} {p : TxPool}
    (hcalls : EveryStep TxPool.call AddsOnce .empty calls) (hrun : run TxPool.call .empty calls = some p) :
    p.weight = (p.stored.map (·.info.weight)).sum ∧ (p.sorted.map (·.id)).Nodup ∧
      ∀ id, id ∈ p.sorted.map (·.id) ↔ id ∈ p.stored.map PooledTx.id := by
  have h : p.Accounted :=
    run_invariant (fun _ _ _ h hc hs => h.call hc hs) accounted_empty hcalls hrun
  exact ⟨h.weight.weights, h.order.once, h.order.entries⟩

end TxPool

/-! ## Receiving a transaction again -/

def exactRate (fee weight : UInt64) : ℚ := fee.toNat / weight.toNat

def lenientEnv (now : UInt64) : PoolEnv where
  checkFee _ _ := true
  checkTxOutputs _ := true
  checkTxInputs _ _ := true
  haveTx _ := false
  feePerByte := exactRate
  now := now
  mempoolTxLivetime := 259200
  mempoolTxFromAltBlockLivetime := 604800
  messageTxLivetime := 86400
  embargo _ := 173

def pooledTx (id : Hash) (k : PublicKey) (weight : UInt64) : Transaction where
  hash := id
  version := 2
  unlockTime := 0
  vin := [.toKey 0 [1] k]
  vout := []
  extra := []
  rctSignatures := .null
  weight := weight
  fee := 10 * weight
  pruned := false

def receive (now : UInt64) (tx : Transaction) (relay : RelayMethod) : PoolCall :=
  { env := lenientEnv now, db := .none, op := .addTx 8 tx relay .none }

/-- Two transactions come in, the first of them twice. -/
theorem pool_accounts_exact_after_fluff_again : ∃ p, run TxPool.call .empty
        [receive 0 (pooledTx 1 11 3000) .fluff, receive 1 (pooledTx 1 11 3000) .fluff,
          receive 2 (pooledTx 2 12 2000) .fluff] = some p ∧ p.stored.length = 2 ∧
      p.weight = (p.stored.map (·.info.weight)).sum ∧ (p.sorted.map (·.id)).Nodup ∧
      ∀ id, id ∈ p.sorted.map (·.id) ↔ id ∈ p.stored.map PooledTx.id := by
  have hl : ((run TxPool.call .empty
      [receive 0 (pooledTx 1 11 3000) .fluff, receive 1 (pooledTx 1 11 3000) .fluff,
        receive 2 (pooledTx 2 12 2000) .fluff]).map fun p =>
      p.stored.length) = some 2 := by
    decide +kernel
  obtain ⟨p, hr, ht⟩ := Option.map_eq_some_iff.mp hl
  refine ⟨p, hr, ht, TxPool.pool_accounts_exact ?_ hr⟩
  apply everyStep_cons
  · exact ⟨rfl, rfl, .inl rfl⟩
  · intro p₁ hs₁
    cases hs₁
    apply everyStep_cons
    · exact ⟨rfl, rfl, .inr ⟨by decide, by decide +kernel⟩⟩
    · intro p₂ hs₂
      cases hs₂
      exact everyStep_cons ⟨rfl, rfl, .inl (by decide +kernel)⟩ fun _ _ => everyStep_nil

/-- A stem transaction received again, fluffed, is stored once, counted twice and has two entries.
-/
theorem stem_received_again_counted_twice : ∃ p, run TxPool.call .empty
        [receive 0 (pooledTx 1 11 3000) .stem, receive 1 (pooledTx 1 11 3000) .fluff] = some p ∧
      p.stored.map (·.info.weight) = [3000] ∧ p.weight = 6000 ∧ p.sorted.map (·.id) = [1, 1] := by
  have hv : ((run TxPool.call .empty
      [receive 0 (pooledTx 1 11 3000) .stem, receive 1 (pooledTx 1 11 3000) .fluff]).map fun p =>
      decide (p.stored.map (·.info.weight) = [3000] ∧ p.weight = 6000 ∧
        p.sorted.map (·.id) = [1, 1])) = some true := by
    decide +kernel
  obtain ⟨p, hr, hf⟩ := Option.map_eq_some_iff.mp hv
  exact ⟨p, hr, of_decide_eq_true hf⟩


end Gyro
