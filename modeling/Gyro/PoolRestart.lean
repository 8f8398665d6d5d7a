import Gyro.KeyImages

/-!
# Restarting the pool

`init` rebuilds the pool's indexes from the records, with every transaction at the rate
of its fee and weight, where `add_tx` gives money locked for spinning a rate of its own.
-/

namespace Gyro

open Keyed InvertedIndex Runs List

namespace SortedEntry

def key (e : SortedEntry) : ℚ × UInt64 := (e.feePerByte, e.receiveTime)

def InOrder (x y : SortedEntry) : Prop := y.precedes x = false

instance : DecidableRel InOrder := fun x y => inferInstanceAs (Decidable (y.precedes x = false))

theorem inOrder_iff {x y : SortedEntry} : x.InOrder y ↔
    y.feePerByte ≤ x.feePerByte ∧ (y.feePerByte = x.feePerByte → x.receiveTime ≤ y.receiveTime) := by
  simp [InOrder, precedes]

instance : Std.Total InOrder where
  total x y := by
    simp only [inOrder_iff]
    rcases lt_trichotomy x.feePerByte y.feePerByte with hlt | heq | hlt
    · exact .inr ⟨hlt.le, fun heq => absurd heq hlt.ne⟩
    · rcases UInt64.le_total x.receiveTime y.receiveTime with hle | hle
      · exact .inl ⟨heq.ge, fun _ => hle⟩
      · exact .inr ⟨heq.le, fun _ => hle⟩
    · exact .inl ⟨hlt.le, fun heq => absurd heq hlt.ne⟩

instance : IsTrans SortedEntry InOrder where
  trans x y z hxy hyz := by
    rw [inOrder_iff] at *
    refine ⟨hyz.1.trans hxy.1, ?_⟩
    intro heq
    have hmid : y.feePerByte = x.feePerByte := le_antisymm hxy.1 (heq ▸ hyz.1)
    exact Std.le_trans (hxy.2 hmid) (hyz.2 (heq.trans hmid.symm))

theorem key_eq_of_inOrder {x y : SortedEntry} (hxy : x.InOrder y) (hy : y.InOrder x) : x.key = y.key := by
  rw [inOrder_iff] at hxy hy
  have hf : x.feePerByte = y.feePerByte := le_antisymm hy.1 hxy.1
  have ht : x.receiveTime = y.receiveTime := Std.le_antisymm (hxy.2 hf.symm) (hy.2 hf)
  simp [key, hf, ht]

end SortedEntry

namespace TxPool

open SortedEntry

def restartEntry (r : PooledTx) : SortedEntry where
  feePerByte := exactRate r.info.fee r.info.weight
  receiveTime := r.info.receiveTime
  id := r.id

structure Ranked (records : List PooledTx) (sorted : List SortedEntry) : Prop where
  entries : sorted.Perm (records.map restartEntry)
  order : sorted.Pairwise InOrder

section
variable {records records' : List PooledTx} {sorted sorted' : List SortedEntry} {e : SortedEntry}
  {r : PooledTx} {id : Hash}

theorem ranked_nil : Ranked [] [] := ⟨.nil, .nil⟩

theorem Ranked.perm (h : Ranked records sorted) (hp : records.Perm records') : Ranked records' sorted :=
  ⟨h.entries.trans (hp.map _), h.order⟩

theorem Ranked.keys_eq (h : Ranked records sorted) (h' : Ranked records sorted') :
    sorted'.Perm sorted ∧ sorted'.map key = sorted.map key := by
  have hp : sorted'.Perm sorted := h'.entries.trans h.entries.symm
  refine ⟨hp, ?_⟩
  have hk : ∀ {l : List SortedEntry}, l.Pairwise InOrder →
      (l.map key).Pairwise fun a b => b.1 ≤ a.1 ∧ (b.1 = a.1 → a.2 ≤ b.2) := by
    intro l hl
    exact pairwise_map.mpr (hl.imp inOrder_iff.mp)
  apply (hp.map key).eq_of_pairwise _ (hk h'.order) (hk h.order)
  intro a b _ _ ha hb
  exact @key_eq_of_inOrder ⟨a.1, a.2, 0⟩ ⟨b.1, b.2, 0⟩ (inOrder_iff.mpr ha) (inOrder_iff.mpr hb)

theorem insertSorted_eq_orderedInsert (h : e ∉ sorted) : insertSorted sorted e = sorted.orderedInsert InOrder e := by
  rw [orderedInsert_eq_take_drop]
  simp [insertSorted, h, InOrder]

variable (h : Ranked records sorted)
include h

theorem Ranked.map_id : (sorted.map (·.id)).Perm (records.map PooledTx.id) := by
  have hi := h.entries.map (·.id)
  rwa [map_map] at hi

theorem Ranked.insert (hf : r.id ∉ records.map PooledTx.id) :
    Ranked (records ++ [r]) (insertSorted sorted (restartEntry r)) := by
  have hn : restartEntry r ∉ sorted := by
    intro hme
    exact hf (h.map_id.subset (mem_map_of_mem hme))
  constructor
  · apply (insertSorted_perm hn).trans
    rw [map_append]
    exact (h.entries.cons _).trans (perm_append_singleton _ _).symm
  · rw [insertSorted_eq_orderedInsert hn]
    exact h.order.orderedInsert _ _

theorem Ranked.without : Ranked (without PooledTx.id records id) (without SortedEntry.id sorted id) := by
  constructor
  · have hf := h.entries.filter fun e => e.id ≠ id
    rwa [filter_map] at hf
  · exact h.order.sublist filter_sublist

end

/-! ## What the calls keep -/

section
variable {p : TxPool} {env : PoolEnv} {version : UInt8} {tx : Transaction} {relay : RelayMethod}

/-- The place that `add_tx` gives to a transaction is the one it has after a restart. -/
def KeepsRate (tx : Transaction) : Prop :=
  tx.weight ≠ 0 ∧
    (tx.unlockTime = spinnedMoneyLockedBlocks → ∃ fee, feeOf tx = some fee ∧ fee.toNat = 10000000 * tx.weight.toNat)

theorem sortedEntry_eq {fee : UInt64} (hn : env.feePerByte = exactRate) (hr : KeepsRate tx)
    (hf : feeOf tx = some fee) (recorded : RelayMethod) (last : UInt64) :
    sortedEntry env tx fee = restartEntry (newRecord env tx recorded fee last) := by
  obtain ⟨hwe, ho⟩ := hr
  have hp : (tx.weight.toNat : ℚ) ≠ 0 := by
    simpa [← UInt64.toNat_inj] using hwe
  by_cases hl : tx.unlockTime = spinnedMoneyLockedBlocks
  · obtain ⟨fee', hf', heq⟩ := ho hl
    obtain rfl : fee' = fee := Option.some.inj (hf'.symm.trans hf)
    have hr : exactRate 10000000 1 = exactRate fee' tx.weight := by
      have ha : (10000000 : UInt64).toNat = 10000000 := rfl
      simp only [exactRate, heq, ha, Nat.cast_mul, mul_div_cancel_right₀ _ hp, UInt64.toNat_one,
        Nat.cast_one, div_one]
    simp only [sortedEntry, hl, if_true, hn, hr, restartEntry, newRecord, PooledTx.id]
  · simp only [sortedEntry, hl, hwe, if_false, hn, restartEntry, newRecord, PooledTx.id]

structure Placed (p : TxPool) : Prop where
  accounts : p.Accounted
  ranked : Ranked p.stored p.sorted

theorem Placed.takeTx (h : p.Placed) (id : Hash) : (p.takeTx .none id).2.Placed := by
  refine ⟨h.accounts.takeTx id, ?_⟩
  unfold TxPool.takeTx
  simp only [DbThrows.none, Bool.false_eq_true, if_false]
  split
  · exact h.ranked
  · rename_i r hr
    obtain ⟨_, rfl⟩ := find_some_mem hr
    simp only [eraseSorted_eq_without h.accounts.order.once]
    exact h.ranked.without

theorem Placed.eraseEntry {e : SortedEntry} {r : PooledTx} (h : p.Placed) (he : e ∈ p.sorted)
    (hr : p.lookup e.id = some r) : { p.removeRecord r r.info.weight with sorted := p.sorted.erase e }.Placed := by
  refine ⟨h.accounts.eraseEntry he hr, ?_⟩
  obtain ⟨_, hi⟩ := find_some_mem hr
  simp only [erase_eq_without h.accounts.order.once he, ← hi]
  exact h.ranked.without

theorem Placed.prune (h : p.Placed) (bytes : UInt64) : (p.prune .none bytes).Placed := by
  have hn : p.sorted.tail.reverse.Nodup :=
    nodup_reverse.mpr (h.accounts.order.once.of_map.sublist (tail_sublist _))
  have hi : ∀ e ∈ p.sorted.tail.reverse, e ∈ p.sorted := by
    intro e he
    exact mem_of_mem_tail (mem_reverse.mp he)
  have hl := @pruneLoop_rule p .none (if bytes = 0 then p.maxWeight else bytes) _ Placed
    (fun _ => rfl) (fun _ => rfl) (fun _ _ hq he => hq.accounts.found he)
    (fun _ _ _ hq he hr _ => hq.eraseEntry he hr) hn hi h
  obtain ⟨hd, hp⟩ := hl
  unfold TxPool.prune
  simp only [hd, if_true, commit_none]
  exact hp

section
variable (h : p.Placed) (hn : env.feePerByte = exactRate) (hr : KeepsRate tx) (hf : p.lookup tx.hash = none)
include h hn hr hf

theorem Placed.withTx {fee : UInt64} (hfe : feeOf tx = some fee)
    (recorded : RelayMethod) (last : UInt64) (images : Index PublicKey Hash) :
    (p.withTx env .none tx recorded fee last images).Placed := by
  refine ⟨h.accounts.withTx hf recorded fee last images, ?_⟩
  simp only [TxPool.withTx, commit_none, without_of_find_none hf, sortedEntry_eq hn hr hfe recorded last]
  exact h.ranked.insert (find_eq_none_iff.mp hf)

theorem Placed.addTx : (p.addTx env .none .none version tx relay).2.Placed := by
  have ho := @addTx_outcome p env .none version tx relay .none
  generalize (p.addTx env .none .none version tx relay).2 = q at ho ⊢
  cases ho with
  | refused => exact h
  | failed => exact ⟨h.accounts.of_eq rfl rfl rfl, h.ranked⟩
  | there ht =>
    rw [hf] at ht
    cases ht
  | stored recorded fee last images _ _ _ _ hfe =>
    exact (h.withTx hn hr hf hfe recorded last images).prune _

end

end

section
variable {p q : TxPool} {env : PoolEnv} {done rs : List PooledTx}

theorem initPass_ranked (hn : env.feePerByte = exactRate) (hk : ((done ++ rs).map PooledTx.id).Nodup)
    (hr : Ranked done p.sorted) (hwe : p.weight = (done.map (·.info.weight)).sum) (hp : initPass env rs p = (true, q)) :
    Ranked (done ++ rs) q.sorted ∧ q.weight = ((done ++ rs).map (·.info.weight)).sum := by
  induction rs generalizing done p with
  | nil =>
    cases hp
    simpa using And.intro hr hwe
  | cons r rs ih =>
    have hf : r.id ∉ done.map PooledTx.id := by
      intro hme
      rw [map_append, nodup_append] at hk
      exact hk.2.2 _ hme r.id (by simp) rfl
    unfold initPass at hp
    split at hp
    · cases hp
    · rw [append_cons] at hk ⊢
      apply ih hk _ _ hp
      · simp only [hn]
        exact hr.insert hf
      · simp [hwe]

theorem passes_perm (stored : List PooledTx) :
    (stored.filter (!·.keptByBlock) ++ stored.filter (·.keptByBlock)).Perm stored := by
  apply perm_append_comm.trans
  exact filter_append_perm (fun r => r.keptByBlock) stored

theorem initPass_stored {b : Bool} (hp : initPass env rs p = (b, q)) : q.stored = p.stored := by
  induction rs generalizing p with
  | nil =>
    cases hp
    rfl
  | cons r rs ih =>
    unfold initPass at hp
    split at hp
    · cases hp
      rfl
    · exact (ih hp).trans rfl

theorem init_ranked {maxTxpoolWeight : UInt64} (hn : env.feePerByte = exactRate)
    (hk : (p.stored.map PooledTx.id).Nodup) (hi : p.init env maxTxpoolWeight = (true, q)) :
    q.stored = p.stored ∧ Ranked p.stored q.sorted ∧ q.weight = (p.stored.map (·.info.weight)).sum := by
  have hp := passes_perm p.stored
  have hk' := (hp.map PooledTx.id).nodup_iff.mpr hk
  unfold TxPool.init at hi
  dsimp only at hi
  split at hi
  · cases hi
  · rename_i p₁ ha
    have hs : p₁.stored = p.stored := (initPass_stored ha).trans rfl
    have hf := @initPass_ranked _ p₁ env [] _ hn
      (hk'.sublist ((sublist_append_left _ _).map _)) ranked_nil rfl ha
    simp only [nil_append, hs] at hf hi
    obtain ⟨hr, hwe⟩ := initPass_ranked hn hk' hf.1 hf.2 hi
    refine ⟨?_, hr.perm hp, ?_⟩
    · exact (initPass_stored hi).trans hs
    · rw [hwe]
      exact (hp.map _).sum_eq

end

/-- A call of `add_tx` or `take_tx` in which nothing throws, with exact fee rates. -/
def ErrorFree (c : PoolCall) : Prop :=
  c.db = .none ∧ c.env.feePerByte = exactRate ∧
    match c.op with
    | .addTx _ _ _ pruneDb => pruneDb = .none
    | .takeTx _ => True
    | _ => False

def Refuses (env : PoolEnv) (version : UInt8) (p : TxPool) (tx : Transaction) (relay : RelayMethod) : Prop :=
  ∀ fee, feeOf tx = some fee → passesChecks env .none version p tx relay fee = false ∨
    relay ≠ .block ∧ env.checkTxInputs tx false = false

/-- The transaction is not in the pool yet, and its place is that of its recorded fee and weight. -/
def RestartSafe (p : TxPool) (c : PoolCall) : Prop :=
  match c.op with
  | .addTx version tx relay _ =>
    Refuses c.env version p tx relay ∨ p.lookup tx.hash = none ∧ KeepsRate tx
  | _ => True

section
variable {imagesOf : Hash → List PublicKey} {p p' : TxPool}

theorem addTx_refused {env : PoolEnv} {version : UInt8} {tx : Transaction} {relay : RelayMethod}
    (h : Refuses env version p tx relay) : (p.addTx env .none .none version tx relay).2 = p := by
  unfold TxPool.addTx
  split
  · rfl
  · rename_i fee hf
    rcases h fee hf with hc | ⟨hr, hi⟩
    · simp [hc]
    · simp [hr, hi]

structure Restartable (imagesOf : Hash → List PublicKey) (p : TxPool) : Prop where
  placed : p.Placed
  images : p.ExactImages imagesOf

theorem restartable_empty (imagesOf : Hash → List PublicKey) (maxWeight : UInt64) :
    { TxPool.empty with maxWeight }.Restartable imagesOf := by
  constructor
  · exact ⟨accounted_empty.of_eq rfl rfl rfl, ranked_nil⟩
  · exact (exactImages_empty imagesOf).of_eq rfl rfl

theorem Restartable.call {c : PoolCall} (h : p.Restartable imagesOf) (hc : ErrorFree c)
    (hg : Genuine imagesOf c) (hsf : p.RestartSafe c) (hs : p.call c = some p') : p'.Restartable imagesOf := by
  obtain ⟨env, db, op⟩ := c
  obtain ⟨hd, hn, ho⟩ := hc
  subst hd
  cases op with
  | addTx version tx relay pruneDb =>
    subst ho
    cases hs
    rcases hsf with hr | ⟨hf, ha⟩
    · rw [addTx_refused hr]
      exact h
    · have hso : p.SortedSound :=
        ⟨h.placed.accounts.order.once, fun e he =>
          (h.placed.accounts.order.entries _).mp (mem_map_of_mem he)⟩
      constructor
      · exact h.placed.addTx hn ha hf
      · apply h.images.addTx hg.1 hg.2 (.inr ⟨rfl, rfl⟩)
        exact .inr ⟨hf, ⟨fun _ => rfl, fun _ => rfl, rfl⟩, hso⟩
  | takeTx id =>
    cases hs
    exact ⟨h.placed.takeTx id, h.images.takeTx (.inl rfl)⟩
  | _ => exact ho.elim

theorem RecordsOk.perm {stored stored' : List PooledTx} (h : RecordsOk imagesOf stored)
    (hp : stored'.Perm stored) : RecordsOk imagesOf stored' := by
  constructor
  · exact (hp.map _).nodup_iff.mpr h.keys
  · intro r hr
    exact h.genuine r (hp.subset hr)
  · intro r hr r' hr'
    exact h.single r (hp.subset hr) r' (hp.subset hr')

theorem Restartable.init {p₀ : TxPool} {env : PoolEnv} (h : p.Restartable imagesOf)
    (hn : env.feePerByte = exactRate) (hs : p₀.stored.Perm p.stored) (maxTxpoolWeight : UInt64) :
    ∃ q, p₀.init env maxTxpoolWeight = (true, q) ∧ q.stored = p₀.stored ∧
      q.spentKeyImages = p.spentKeyImages ∧ q.weight = p.weight ∧ q.sorted.Perm p.sorted ∧
      q.sorted.map SortedEntry.key = p.sorted.map SortedEntry.key := by
  have hr : RecordsOk imagesOf p₀.stored := h.images.records.perm hs
  obtain ⟨hd, hx⟩ := @init_exact imagesOf p₀ env maxTxpoolWeight hr
  rcases hi : p₀.init env maxTxpoolWeight with ⟨done, q⟩
  rw [hi] at hd hx
  cases hd
  obtain ⟨ha, hrn, hwe⟩ := init_ranked hn hr.keys hi
  refine ⟨q, rfl, ha, ?_, ?_, h.placed.ranked.keys_eq (hrn.perm hs)⟩
  · rw [hx.images, h.images.images, ha]
    apply index_congr
    intro k id
    simp only [mem_ownersOf, hs.mem_iff]
  · rw [hwe, h.placed.accounts.weight.weights]
    exact (hs.map _).sum_eq

end

/-- A restart does not change the pool if every transaction added was new, at the rate of its fee
and weight. -/
theorem restart_keeps_pool {imagesOf : Hash → List PublicKey} {calls : List PoolCall} {maxWeight : UInt64}
    {p p₀ : TxPool} {env : PoolEnv} (hcalls : ∀ c ∈ calls, ErrorFree c ∧ Genuine imagesOf c)
    (hsafe : EveryStep TxPool.call RestartSafe { TxPool.empty with maxWeight } calls)
    (hrun : run TxPool.call { TxPool.empty with maxWeight } calls = some p)
    (henv : env.feePerByte = exactRate) (hstored : p₀.stored.Perm p.stored) (maxTxpoolWeight : UInt64) :
    ∃ q, p₀.init env maxTxpoolWeight = (true, q) ∧ q.stored = p₀.stored ∧
      q.spentKeyImages = p.spentKeyImages ∧ q.weight = p.weight ∧ q.sorted.Perm p.sorted ∧
      q.sorted.map SortedEntry.key = p.sorted.map SortedEntry.key := by
  have h : p.Restartable imagesOf := by
    apply run_invariant _ (restartable_empty imagesOf maxWeight) (hsafe.and_forall hcalls) hrun
    intro p c p' hp hc hs
    exact hp.call hc.2.1 hc.2.2 hc.1 hs
  exact h.init henv hstored maxTxpoolWeight

end TxPool

def lockingTx (id : Hash) (k : PublicKey) (weight fee : UInt64) : Transaction :=
  { pooledTx id k weight with unlockTime := spinnedMoneyLockedBlocks, fee }

def takeOut (now : UInt64) (id : Hash) : PoolCall :=
  { env := lenientEnv now, db := .none, op := .takeTx id }

/-- A locked transaction that pays for its place stays where it is. -/
theorem restart_keeps_pool_after_take :
    ∃ p, run TxPool.call { TxPool.empty with maxWeight := 1000000 }
        [receive 0 (pooledTx 1 11 3000) .fluff, receive 1 (lockingTx 2 12 2000 20000000000) .fluff,
          receive 2 (pooledTx 3 13 2500) .block, takeOut 3 1] = some p ∧
      p.sorted.map SortedEntry.id = [2, 3] ∧
      ∃ q, { TxPool.empty with stored := p.stored.reverse }.init (lenientEnv 9) 0 = (true, q) ∧
        q.stored = p.stored.reverse ∧ q.spentKeyImages = p.spentKeyImages ∧ q.weight = p.weight ∧
        q.sorted.Perm p.sorted ∧ q.sorted.map SortedEntry.key = p.sorted.map SortedEntry.key := by
  have hv : ((run TxPool.call { TxPool.empty with maxWeight := 1000000 }
      [receive 0 (pooledTx 1 11 3000) .fluff, receive 1 (lockingTx 2 12 2000 20000000000) .fluff,
        receive 2 (pooledTx 3 13 2500) .block, takeOut 3 1]).map fun p =>
      p.sorted.map SortedEntry.id) = some [2, 3] := by
    decide +kernel
  obtain ⟨p, hr, hi⟩ := Option.map_eq_some_iff.mp hv
  refine ⟨p, hr, hi, @TxPool.restart_keeps_pool (fun id => [id + 10]) _ _ _ _ _ ?_ ?_ hr rfl
    p.stored.reverse_perm 0⟩
  · simp [TxPool.ErrorFree, TxPool.Genuine, receive, takeOut, pooledTx, lockingTx, lenientEnv,
      Transaction.keyImages, TxIn.keyImage?]
  · apply everyStep_cons
    · exact .inr ⟨rfl, by decide, fun hl => absurd hl (by decide)⟩
    intro p₁ hs₁
    cases hs₁
    apply everyStep_cons
    · exact .inr ⟨by decide +kernel, by decide, fun _ => ⟨20000000000, rfl, rfl⟩⟩
    intro p₂ hs₂
    cases hs₂
    apply everyStep_cons
    · exact .inr ⟨by decide +kernel, by decide, fun hl => absurd hl (by decide)⟩
    intro p₃ _
    exact everyStep_cons trivial fun _ _ => everyStep_nil

/-- A transaction that locks money without a fee comes first, and last after a restart. -/
theorem locked_money_loses_place : ∃ p q, run TxPool.call .empty
        [receive 0 (pooledTx 1 11 3000) .fluff, receive 1 (lockingTx 2 12 2000 0) .fluff] = some p ∧
      { TxPool.empty with stored := p.stored }.init (lenientEnv 2) 0 = (true, q) ∧
      p.sorted.map SortedEntry.id = [2, 1] ∧ q.sorted.map SortedEntry.id = [1, 2] := by
  have hv : ((run TxPool.call .empty
      [receive 0 (pooledTx 1 11 3000) .fluff, receive 1 (lockingTx 2 12 2000 0) .fluff]).map fun p =>
      decide (({ TxPool.empty with stored := p.stored }.init (lenientEnv 2) 0).1 = true ∧
        p.sorted.map SortedEntry.id = [2, 1] ∧
        ({ TxPool.empty with stored := p.stored }.init (lenientEnv 2) 0).2.sorted.map SortedEntry.id = [1, 2])) =
      some true := by
    decide +kernel
  obtain ⟨p, hr, hf⟩ := Option.map_eq_some_iff.mp hv
  obtain ⟨hd, hb, ha⟩ := of_decide_eq_true hf
  exact ⟨p, _, hr, Prod.ext hd rfl, hb, ha⟩

end Gyro
