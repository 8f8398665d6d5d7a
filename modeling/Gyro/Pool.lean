import Gyro.Types

/-!
# The memory pool, as block handling uses it

Transactions by hash. `take_tx` removes one, and `add_tx` with
`relay_method::block` puts back the transactions of a block.
-/

namespace Gyro

structure Pool where
  lookup : Hash → Option Transaction
  /-- A transaction is stored under its own hash. -/
  keyed : ∀ id tx, lookup id = some tx → tx.hash = id

namespace Pool

@[ext] theorem ext {p q : Pool} (h : ∀ id, p.lookup id = q.lookup id) : p = q := by
  cases p with | mk f _ =>
    cases q with | mk g _ =>
      have hf : f = g := funext h
      subst hf
      rfl

def empty : Pool := { lookup := fun _ => none, keyed := fun _ _ h => by cases h }

def has (p : Pool) (id : Hash) : Bool := (p.lookup id).isSome

def remove (p : Pool) (id : Hash) : Pool where
  lookup k := if k = id then none else p.lookup k
  keyed k tx h := by
    by_cases hk : k = id
    · rw [if_pos hk] at h; cases h
    · rw [if_neg hk] at h; exact p.keyed k tx h

def takeTx (p : Pool) (id : Hash) : Option (Transaction × Pool) :=
  (p.lookup id).map fun tx => (tx, p.remove id)

def addTx (p : Pool) (tx : Transaction) : Pool where
  lookup k := if k = tx.hash then some tx else p.lookup k
  keyed k t h := by
    by_cases hk : k = tx.hash
    · rw [if_pos hk] at h; cases h; exact hk.symm
    · rw [if_neg hk] at h; exact p.keyed k t h

def removeAll (p : Pool) (ids : List Hash) : Pool where
  lookup k := if k ∈ ids then none else p.lookup k
  keyed k tx h := by
    by_cases hk : k ∈ ids
    · rw [if_pos hk] at h; cases h
    · rw [if_neg hk] at h; exact p.keyed k tx h

def returnTxs (p : Pool) (txs : List Transaction) : Pool := txs.foldl addTx p

section
variable {p q : Pool} {id : Hash} {tx : Transaction}

theorem takeTx_eq_some (h : p.takeTx id = some (tx, q)) : p.lookup id = some tx ∧ q = p.remove id ∧ tx.hash = id := by
  obtain ⟨tx', ht, heq⟩ := Option.map_eq_some_iff.mp h
  cases heq
  exact ⟨ht, rfl, p.keyed _ _ ht⟩

theorem takeTx_eq_none : p.takeTx id = none ↔ p.lookup id = none := by
  simp [takeTx]

@[simp] theorem lookup_remove (p : Pool) (id k : Hash) :
    (p.remove id).lookup k = if k = id then none else p.lookup k := rfl

@[simp] theorem lookup_addTx (p : Pool) (tx : Transaction) (k : Hash) :
    (p.addTx tx).lookup k = if k = tx.hash then some tx else p.lookup k := rfl

@[simp] theorem lookup_removeAll (p : Pool) (ids : List Hash) (k : Hash) :
    (p.removeAll ids).lookup k = if k ∈ ids then none else p.lookup k := rfl

@[simp] theorem removeAll_nil (p : Pool) : p.removeAll [] = p := by
  ext k
  simp

theorem removeAll_concat (p : Pool) (ids : List Hash) (id : Hash) :
    (p.removeAll ids).remove id = p.removeAll (ids ++ [id]) := by
  ext k
  by_cases hk : k = id
  · simp [hk]
  · simp [hk]

theorem has_returnTxs (p : Pool) (txs : List Transaction) (k : Hash) :
    (p.returnTxs txs).has k = (p.has k || decide (k ∈ txs.map (·.hash))) := by
  induction txs generalizing p with
  | nil => simp [returnTxs]
  | cons tx txs ih =>
    change ((p.addTx tx).returnTxs txs).has k = _
    rw [ih (p.addTx tx)]
    by_cases hk : k = tx.hash
    · simp [has, hk]
    · simp [has, hk]

variable {txs : List Transaction}

theorem lookup_returnTxs_of_not_mem {k : Hash}
    (h : k ∉ txs.map (·.hash)) : (p.returnTxs txs).lookup k = p.lookup k := by
  induction txs generalizing p with
  | nil => rfl
  | cons tx txs ih =>
    rw [List.map_cons, List.mem_cons, not_or] at h
    change ((p.addTx tx).returnTxs txs).lookup k = _
    rw [ih h.2, lookup_addTx, if_neg h.1]

theorem lookup_returnTxs_same (hs : ∀ tx' ∈ txs, tx'.hash = tx.hash → tx' = tx)
    (h : p.lookup tx.hash = some tx ∨ tx ∈ txs) : (p.returnTxs txs).lookup tx.hash = some tx := by
  induction txs generalizing p with
  | nil =>
    obtain h | h := h
    · exact h
    · cases h
  | cons tx' txs ih =>
    refine ih (fun tx'' ht'' => hs tx'' (List.mem_cons_of_mem _ ht'')) ?_
    rw [lookup_addTx]
    by_cases hh : tx.hash = tx'.hash
    · rw [if_pos hh, hs tx' List.mem_cons_self hh.symm]
      exact .inl rfl
    · rw [if_neg hh]
      refine h.imp id ?_
      intro hme
      cases hme with
      | head => exact absurd rfl hh
      | tail _ hme => exact hme

theorem returnTxs_eq (hh : ∀ tx ∈ txs, p.lookup tx.hash = some tx)
    (hr : ∀ k, k ∉ txs.map (·.hash) → q.lookup k = p.lookup k) : q.returnTxs txs = p := by
  induction txs generalizing q with
  | nil =>
    apply Pool.ext
    intro k
    exact hr k (by simp)
  | cons tx txs ih =>
    refine ih (q := q.addTx tx) (fun tx' ht' => hh tx' (List.mem_cons_of_mem _ ht')) ?_
    intro k hk
    by_cases ht : k = tx.hash
    · rw [lookup_addTx, if_pos ht, ht, hh tx List.mem_cons_self]
    · rw [lookup_addTx, if_neg ht]
      exact hr k (by simpa [ht] using hk)

end

end Pool

end Gyro
