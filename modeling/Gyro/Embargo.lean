import Gyro.PoolRestart

/-!
# Relaying again

`get_relayable_transactions` and the time that it reads: on its stem phase the end of
an embargo drawn by `set_relayed`. It passes over those whose embargo is over.
-/

namespace Gyro

open Keyed Runs List

def minRelayTime : Int64 := 60 * 5
def maxRelayTime : Int64 := 60 * 60 * 4

def getRelayDelay (now received : UInt64) : UInt64 :=
  let d := (now.toInt64 - received.toInt64 + minRelayTime) / minRelayTime * minRelayTime
  (if maxRelayTime < d then maxRelayTime else d).toUInt64

def RelayMethod.relayable (method : RelayMethod) : Bool := method ≠ .none

namespace TxPool

def maxAge (env : PoolEnv) (r : PooledTx) : UInt64 :=
  if r.info.isMessage then env.messageTxLivetime
  else if r.keptByBlock then env.mempoolTxFromAltBlockLivetime
  else env.mempoolTxLivetime

def isYoung (env : PoolEnv) (r : PooledTx) : Bool := env.now - r.info.receiveTime ≤ maxAge env r / 2

def isRelayable (env : PoolEnv) (r : PooledTx) : Bool :=
  !r.info.pruned && 0 < r.info.fee && r.info.relayMethod ≠ .none &&
    !(r.info.relayMethod ≠ .stem && env.now - r.info.lastRelayedTime ≤ getRelayDelay env.now r.info.receiveTime) &&
    !(r.info.relayMethod = .stem && r.info.lastRelayedTime < env.now) &&
    isYoung env r

def getRelayableTransactions (env : PoolEnv) (db : DbThrows) (p : TxPool) :
    List (Hash × Transaction × RelayMethod) :=
  ((p.stored.filter (·.info.relayMethod.relayable)).filter fun r => isRelayable env r && !db.read r.id).map
    fun r => (r.id, r.tx, r.info.relayMethod)

section
variable {p p' : TxPool} {db : DbThrows} {env : PoolEnv} {r : PooledTx} {rs : List PooledTx}

theorem mem_getRelayableTransactions (hk : (p.stored.map PooledTx.id).Nodup) (hr : r ∈ p.stored)
    (hs : r.info.relayMethod = .stem) (hf : 0 < r.info.fee) : r.id ∈ (p.getRelayableTransactions env db).map Prod.fst ↔
      ¬ (r.info.pruned ∨ db.read r.id) ∧ env.now ≤ r.info.lastRelayedTime ∧ isYoung env r := by
  have hse : r.id ∈ (p.getRelayableTransactions env db).map Prod.fst ↔
      isRelayable env r = true ∧ db.read r.id = false := by
    simp only [getRelayableTransactions, map_map, mem_map, mem_filter, Bool.and_eq_true,
      Bool.not_eq_true', Function.comp_apply]
    constructor
    · rintro ⟨r', ⟨⟨hr', _⟩, hb⟩, hi⟩
      obtain rfl := inj_on_of_nodup_map hk hr' hr hi
      exact hb
    · intro hb
      exact ⟨r, ⟨⟨hr, by simp [RelayMethod.relayable, hs]⟩, hb⟩, rfl⟩
  rw [hse]
  simp only [isRelayable, hs, hf, decide_true, Bool.and_true, Bool.true_and, ne_eq, not_true_eq_false,
    decide_false, Bool.false_and, Bool.not_false, reduceCtorEq, not_false_eq_true, Bool.and_eq_true,
    Bool.not_eq_true', decide_eq_false_iff_not, UInt64.not_lt, not_or, Bool.not_eq_true]
  tauto

/-! ## The records after a call -/

theorem pruneLoop_stored {bytes : UInt64} {todo : List SortedEntry} :
    (pruneLoop db bytes todo p).2.stored.Sublist p.stored := by
  induction todo generalizing p with
  | nil => exact .refl _
  | cons e todo ih =>
    unfold pruneLoop
    split
    · exact .refl _
    · split
      · exact .refl _
      · split
        · exact .refl _
        · split
          · exact ih
          · split
            · exact .refl _
            · exact ih.trans filter_sublist

theorem commit_sublist {before after : List PooledTx} (h : after.Sublist before) :
    (commit db before after).Sublist before := by
  unfold commit
  split
  · exact .refl _
  · exact h

theorem prune_stored {bytes : UInt64} : (p.prune db bytes).stored.Sublist p.stored := by
  unfold prune
  generalize (if bytes = 0 then p.maxWeight else bytes) = limit
  dsimp only
  split
  · exact commit_sublist pruneLoop_stored
  · exact .refl _

theorem dropRecords_stored {weight : PooledTx → UInt64} : (p.dropRecords weight rs).stored.Sublist p.stored := by
  induction rs generalizing p with
  | nil => exact .refl _
  | cons r rs ih => exact (ih (p := p.removeRecord r (weight r))).trans filter_sublist

theorem takeTx_stored {id : Hash} : (p.takeTx db id).2.stored.Sublist p.stored := by
  unfold takeTx
  split
  · exact .refl _
  · split
    · exact .refl _
    · split
      · exact .refl _
      · exact commit_sublist filter_sublist

theorem removeStuckTransactions_stored : (p.removeStuckTransactions env db).stored.Sublist p.stored := by
  rw [removeStuckTransactions_eq]
  exact commit_sublist dropRecords_stored

theorem validate_stored {version : UInt8} : (p.validate env db version).stored.Sublist p.stored := by
  rw [validate_eq env db version p _ rfl]
  exact commit_sublist dropRecords_stored

theorem init_stored {maxTxpoolWeight : UInt64} : (p.init env maxTxpoolWeight).2.stored = p.stored := by
  unfold init
  dsimp only
  split
  · rename_i hp
    exact (initPass_stored hp).trans rfl
  · rename_i p₁ hp
    have hs : p₁.stored = p.stored := (initPass_stored hp).trans rfl
    exact (initPass_stored (Prod.eta _).symm).trans hs

theorem addTx_stored {pruneDb : DbThrows} {version : UInt8} {tx : Transaction} {relay : RelayMethod}
    (hk : (p.stored.map PooledTx.id).Nodup) (hp : p' = (p.addTx env db pruneDb version tx relay).2) :
    (p'.stored.map PooledTx.id).Nodup ∧ ∀ r ∈ p'.stored, r ∈ p.stored ∨
      (r.info.relayMethod ≠ .block → r.info.lastRelayedTime = notRelayed) := by
  have ho := @addTx_outcome p env db version tx relay pruneDb
  rw [← hp] at ho
  cases ho with
  | refused => exact ⟨hk, fun _ hr => .inl hr⟩
  | failed => exact ⟨hk, fun _ hr => .inl hr⟩
  | there =>
    have hs := @prune_stored { p with weight := p.weight + tx.weight } pruneDb p.maxWeight
    exact ⟨hk.sublist (hs.map _), fun _ hr => .inl (hs.subset hr)⟩
  | stored recorded fee last images hb hl hin hwr hf =>
    have hs := @prune_stored (p.withTx env db tx recorded fee last images) pruneDb p.maxWeight
    have hn : ((without PooledTx.id p.stored tx.hash ++
        [newRecord env tx recorded fee last]).map PooledTx.id).Nodup := by
      apply nodup_concat (nodup_without hk)
      simp [mem_map_without, newRecord, PooledTx.id]
    have hi : (p.withTx env db tx recorded fee last images).stored =
        commit db p.stored (without PooledTx.id p.stored tx.hash ++
          [newRecord env tx recorded fee last]) := rfl
    rw [hi] at hs
    unfold commit at hs
    split at hs
    · exact ⟨hk.sublist (hs.map _), fun _ hr => .inl (hs.subset hr)⟩
    · refine ⟨hn.sublist (hs.map _), ?_⟩
      intro r hr
      rcases mem_append.mp (hs.subset hr) with hr | hr
      · exact .inl (mem_without.mp hr).1
      · right
        rw [mem_singleton.mp hr]
        exact hl

end

/-! ## Watching the embargoes -/

structure Watched where
  pool : TxPool
  ends : Hash → Option UInt64

/-- `set_relayed` draws an embargo, and a record that `add_tx` writes starts without one. -/
def Watched.endsAfter (w : Watched) (c : PoolCall) (p' : TxPool) (id : Hash) : Option UInt64 :=
  match c.op with
  | .setRelayed ids _ =>
    if id ∈ ids ∧ ¬ c.db.read id ∧ ¬ c.db.write id ∧ ¬ c.db.commit then
      some (c.env.now + c.env.embargo id)
    else w.ends id
  | .addTx _ _ _ _ => if p'.lookup id = w.pool.lookup id then w.ends id else none
  | _ => w.ends id

def Watched.call (w : Watched) (c : PoolCall) : Option Watched :=
  (w.pool.call c).map fun p' => { pool := p', ends := w.endsAfter c p' }

def Watched.empty : Watched where
  pool := .empty
  ends _ := none

structure Watched.Timed (w : Watched) : Prop where
  keys : (w.pool.stored.map PooledTx.id).Nodup
  stem : ∀ r ∈ w.pool.stored, r.info.relayMethod = .stem →
    r.info.lastRelayedTime = (w.ends r.id).getD notRelayed

section
variable {w w' : Watched} {c : PoolCall} {p' : TxPool}

theorem Watched.Timed.sublist (h : w.Timed) (hs : p'.stored.Sublist w.pool.stored) : { w with pool := p' }.Timed := by
  constructor
  · exact h.keys.sublist (hs.map _)
  · intro r hr
    exact h.stem r (hs.subset hr)

theorem Watched.Timed.addTx {env : PoolEnv} {db pruneDb : DbThrows} {version : UInt8} {tx : Transaction}
    {relay : RelayMethod} (h : w.Timed) (hp : p' = (w.pool.addTx env db pruneDb version tx relay).2) :
    { pool := p', ends := w.endsAfter ⟨env, db, .addTx version tx relay pruneDb⟩ p' : Watched }.Timed := by
  obtain ⟨hk, hc⟩ := addTx_stored h.keys hp
  refine ⟨hk, ?_⟩
  intro r hr ht
  have hl : p'.lookup r.id = some r := (find_eq_some_iff hk).mpr ⟨hr, rfl⟩
  change _ = (if p'.lookup r.id = w.pool.lookup r.id then w.ends r.id else none).getD notRelayed
  by_cases hs : p'.lookup r.id = w.pool.lookup r.id
  · rw [if_pos hs]
    exact h.stem r (find_some_mem (hs.symm.trans hl)).1 ht
  · rw [if_neg hs]
    rcases hc r hr with hold | hn
    · have hb : w.pool.lookup r.id = some r := (find_eq_some_iff h.keys).mpr ⟨hold, rfl⟩
      exact absurd (hl.trans hb.symm) hs
    · exact hn (by simp [ht])

theorem Watched.Timed.setRelayed {env : PoolEnv} {db : DbThrows} {ids : List Hash} {method : RelayMethod}
    (h : w.Timed) (hp : p' = w.pool.setRelayed env db ids method) :
    { pool := p', ends := w.endsAfter ⟨env, db, .setRelayed ids method⟩ p' : Watched }.Timed := by
  by_cases hc : db.commit = true
  · -- nothing is written
    have hn : w.endsAfter ⟨env, db, .setRelayed ids method⟩ p' = w.ends := by
      funext id
      simp [endsAfter, hc]
    have hs : p'.stored = w.pool.stored := by
      simp [hp, TxPool.setRelayed, commit, hc]
    rw [hn]
    exact h.sublist (hs ▸ .refl _)
  · have hs : p'.stored = w.pool.stored.map (relayed env db ids method) := by
      simp [hp, TxPool.setRelayed, commit, hc]
    constructor
    · rw [hs, map_id_relayed]
      exact h.keys
    · intro r' hr' ht
      rw [hs] at hr'
      obtain ⟨r, hr, rfl⟩ := mem_map.mp hr'
      have hi : (relayed env db ids method r).id = r.id := congrArg Transaction.hash (relayed_tx r)
      rw [hi]
      by_cases hh : r.id ∈ ids ∧ ¬ db.read r.id ∧ ¬ db.write r.id
      · simp only [relayed, if_pos hh] at ht ⊢
        simp [endsAfter, hh, hc, ht]
      · have hn : w.endsAfter ⟨env, db, .setRelayed ids method⟩ p' r.id = w.ends r.id := by
          simp only [endsAfter]
          rw [if_neg]
          rintro ⟨hme, hre, hwr, _⟩
          exact hh ⟨hme, hre, hwr⟩
        simp only [relayed, if_neg hh] at ht ⊢
        rw [hn]
        exact h.stem r hr ht

theorem Watched.Timed.call (h : w.Timed) (hs : w.call c = some w') : w'.Timed := by
  obtain ⟨p', hp, rfl⟩ := Option.map_eq_some_iff.mp hs
  obtain ⟨env, db, op⟩ := c
  cases op with
  | addTx version tx relay pruneDb => exact h.addTx (Option.some.inj hp).symm
  | setRelayed ids method => exact h.setRelayed (Option.some.inj hp).symm
  | takeTx id =>
    cases hp
    exact h.sublist takeTx_stored
  | prune bytes =>
    cases hp
    exact h.sublist prune_stored
  | removeStuckTransactions =>
    cases hp
    exact h.sublist removeStuckTransactions_stored
  | validate version =>
    cases hp
    exact h.sublist validate_stored
  | init maxTxpoolWeight =>
    cases hp
    apply h.sublist
    simp [init_stored]

theorem timed_run {calls : List PoolCall} (hr : run Watched.call .empty calls = some w) : w.Timed := by
  have hem : Watched.empty.Timed := ⟨nodup_nil, by simp [Watched.empty, TxPool.empty]⟩
  exact run_preserves (fun _ _ _ h hs => h.call hs) hem hr

end

/-- A transaction comes back exactly between the end of its embargo and its age limit. -/
def EmbargoKept (env : PoolEnv) (db : DbThrows) (w : Watched) (r : PooledTx) : Prop :=
  match w.ends r.id with
  | none => r.id ∉ (w.pool.getRelayableTransactions env db).map Prod.fst
  | some e =>
    (r.id ∈ (w.pool.getRelayableTransactions env db).map Prod.fst → e ≤ env.now) ∧
      (e ≤ env.now → isYoung env r → r.id ∈ (w.pool.getRelayableTransactions env db).map Prod.fst)

/-- The transaction is too old, cannot be sent and is under its embargo, or can and its embargo ends
now. -/
def EmbargoMoment (env : PoolEnv) (db : DbThrows) (w : Watched) (r : PooledTx) : Prop :=
  isYoung env r = false ∨
    match w.ends r.id with
    | none => r.info.pruned ∨ db.read r.id
    | some e => if r.info.pruned ∨ db.read r.id then env.now < e else env.now = e

/-- After any history of calls the embargo is respected only if it makes no difference, or ends at
that time. -/
theorem embargo_kept_iff {calls : List PoolCall} {w : Watched} {r : PooledTx} (env : PoolEnv) (db : DbThrows)
    (hrun : run Watched.call .empty calls = some w) (hr : r ∈ w.pool.stored)
    (hstem : r.info.relayMethod = .stem) (hfee : 0 < r.info.fee) :
    EmbargoKept env db w r ↔ EmbargoMoment env db w r := by
  have ht := timed_run hrun
  have hl := ht.stem r hr hstem
  have hb := @mem_getRelayableTransactions w.pool db env r ht.keys hr hstem hfee
  unfold EmbargoKept EmbargoMoment
  cases hn : w.ends r.id with
  | none =>
    have hv : env.now ≤ notRelayed := by
      rw [UInt64.le_iff_toNat_le]
      have hlt := env.now.toNat_lt
      have hma : notRelayed.toNat = 18446744073709551615 := rfl
      omega
    simp only [hn, Option.getD_none] at hl
    simp only [hb, hl, hv, true_and]
    cases isYoung env r with
    | false => simp
    | true =>
      by_cases hu : r.info.pruned ∨ db.read r.id
      · simp [hu]
      · simp [hu]
  | some e =>
    simp only [hn, Option.getD_some] at hl
    simp only [hb, hl]
    cases isYoung env r with
    | false => simp
    | true =>
      by_cases hu : r.info.pruned ∨ db.read r.id
      · simp [hu]
      · simp only [hu, not_false_eq_true, true_and, and_true, if_false, Bool.true_eq_false, false_or,
          forall_const]
        constructor
        · rintro ⟨ha, hbe⟩
          rcases UInt64.le_total env.now e with hle | hle
          · exact UInt64.le_antisymm hle (ha hle)
          · exact UInt64.le_antisymm (hbe hle) hle
        · rintro rfl
          exact ⟨id, id⟩

end TxPool

def stemCall : PoolCall := receive 0 (pooledTx 1 11 3000) .stem

def relayCall : PoolCall := { env := lenientEnv 10, db := .none, op := .setRelayed [1] .stem }

/-- At the end of its embargo the transaction comes back. -/
theorem embargo_kept_at_end :
    ∃ w r, run TxPool.Watched.call .empty [stemCall, relayCall] = some w ∧ w.pool.stored = [r] ∧
      w.ends r.id = some 183 ∧ r.info.relayMethod = .stem ∧
      TxPool.EmbargoKept (lenientEnv 183) .none w r := by
  have hv : ((run TxPool.Watched.call .empty [stemCall, relayCall]).map fun w =>
      (w.pool.stored, w.ends 1)) = some ([{
        tx := pooledTx 1 11 3000
        info := { weight := 3000, fee := 30000, receiveTime := 0, lastRelayedTime := 183, relayMethod := .stem
                  pruned := false, isMessage := false } }], some 183) := by
    decide +kernel
  obtain ⟨w, hr, hw⟩ := Option.map_eq_some_iff.mp hv
  obtain ⟨hs, hn⟩ := Prod.mk.inj hw
  refine ⟨w, _, hr, hs, hn, rfl, ?_⟩
  apply (TxPool.embargo_kept_iff _ _ hr (hs ▸ mem_singleton_self _) rfl (by decide)).mpr
  right
  simp only [PooledTx.id, pooledTx, hn]
  simp [DbThrows.none, lenientEnv]

/-- The transaction is relayed again under its embargo, and no more after it. -/
theorem embargo_turned_round : ∃ w₁ w₂, run TxPool.Watched.call .empty [stemCall] = some w₁ ∧ w₁.ends 1 = none ∧
      run TxPool.Watched.call .empty [stemCall, relayCall] = some w₂ ∧ w₂.ends 1 = some 183 ∧
      w₂.pool.stored.map (fun r => (r.info.relayMethod, r.info.fee)) = [(.stem, 30000)] ∧
      (w₁.pool.getRelayableTransactions (lenientEnv 1) .none).map Prod.fst = [1] ∧
      (w₂.pool.getRelayableTransactions (lenientEnv 20) .none).map Prod.fst = [1] ∧
      (w₂.pool.getRelayableTransactions (lenientEnv 184) .none).map Prod.fst = [] := by
  have hf : ((run TxPool.Watched.call .empty [stemCall]).map fun w => decide (w.ends 1 = none ∧
      (w.pool.getRelayableTransactions (lenientEnv 1) .none).map Prod.fst = [1])) = some true := by
    decide +kernel
  have hs : ((run TxPool.Watched.call .empty [stemCall, relayCall]).map fun w =>
      decide (w.ends 1 = some 183 ∧ w.pool.stored.map (fun r => (r.info.relayMethod, r.info.fee)) = [(.stem, 30000)] ∧
        (w.pool.getRelayableTransactions (lenientEnv 20) .none).map Prod.fst = [1] ∧
        (w.pool.getRelayableTransactions (lenientEnv 184) .none).map Prod.fst = [])) = some true := by
    decide +kernel
  obtain ⟨w₁, hr₁, hf₁⟩ := Option.map_eq_some_iff.mp hf
  obtain ⟨w₂, hr₂, hf₂⟩ := Option.map_eq_some_iff.mp hs
  obtain ⟨he₁, hb₁⟩ := of_decide_eq_true hf₁
  obtain ⟨he₂, hs₂, hb₂, hg₂⟩ := of_decide_eq_true hf₂
  exact ⟨w₁, w₂, hr₁, he₁, hr₂, he₂, hs₂, hb₁, hb₂, hg₂⟩

end Gyro
