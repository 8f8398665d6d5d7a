import Gyro.Types
import Gyro.Lib.LastIndex

/-!
# The block database

`blockchain_db.cpp` and `db_lmdb.cpp`: the blocks of the main chain, oldest first, with
their metadata, and `spinner_heights`. A write that throws changes nothing.
-/

namespace Gyro

inductive DbError where
  | blockDne
  | blockExists
  | blockParentDne
  | txDne
  | txExists
  | keyImageExists
  | outputDne
  | inconsistentSizes
  | mapFull
  | dbError
  deriving DecidableEq, Repr

structure BlockEntry where
  block : Block
  txs : List Transaction
  weight : UInt64
  coins : UInt64
  gyro : GyroType
  spinPublicKey : PublicKey
  spinPrevuosHeight : UInt64

/-- The database is a memory map, so it holds fewer than `2 ^ 63` blocks. -/
structure Db where
  entries : List BlockEntry
  spinnerHeights : PublicKey → Option UInt64
  bounded : entries.length < 2 ^ 63

namespace BlockEntry

def allTxs (e : BlockEntry) : List Transaction := e.block.spinnerTx :: e.txs

def hasTx (e : BlockEntry) (id : Hash) : Bool := e.allTxs.any (·.hash = id)

end BlockEntry

namespace Db

def empty : Db := { entries := [], spinnerHeights := fun _ => none, bounded := by simp }

def height (db : Db) : UInt64 := UInt64.ofNat db.entries.length

def entryAt (db : Db) (h : UInt64) : Option BlockEntry := db.entries[h.toNat]?

def getBlockFromHeight (db : Db) (h : UInt64) : Option Block := (db.entryAt h).map (·.block)

def getBlockTimestamp (db : Db) (h : UInt64) : Option UInt64 :=
  (db.entryAt h).map (·.block.timestamp)

def getBlockHashFromHeight (db : Db) (h : UInt64) : Option Hash := (db.entryAt h).map (·.block.hash)

def topBlockHash (db : Db) : Hash :=
  match db.entries.getLast? with
  | some e => e.block.hash
  | none => nullHash

def getBlockHeight (db : Db) (id : Hash) : Option UInt64 :=
  (db.entries.findIdx? (·.block.hash = id)).map UInt64.ofNat

def blockExists (db : Db) (id : Hash) : Bool := db.entries.any (·.block.hash = id)

def allTxs (db : Db) : List Transaction := db.entries.flatMap (·.allTxs)

def getTx (db : Db) (id : Hash) : Option Transaction := db.allTxs.find? (·.hash = id)

def txExists (db : Db) (id : Hash) : Bool := db.entries.any (·.hasTx id)

def getTxBlockHeight (db : Db) (id : Hash) : Option UInt64 :=
  (db.entries.findIdx? (·.hasTx id)).map UInt64.ofNat

def getSpinnerHeight (db : Db) (pk : PublicKey) : UInt64 := (db.spinnerHeights pk).getD 0

def putSpinnerHeight (table : PublicKey → Option UInt64) (pk : PublicKey) (h : UInt64) :
    PublicKey → Option UInt64 :=
  fun k => if k = pk then some h else table k

def addTransactions : List PublicKey → List Hash → List Transaction → Except DbError Unit
  | _, _, [] => .ok ()
  | images, hashes, tx :: txs =>
    if tx.keyImages.any (· ∈ images) ∨ ¬ tx.keyImages.Nodup then .error .keyImageExists
    else if tx.hash ∈ hashes then .error .txExists
    else addTransactions (tx.keyImages ++ images) (tx.hash :: hashes) txs

def addBlockChecks (db : Db) (e : BlockEntry) : Except DbError Unit := do
  if e.block.txHashes.length ≠ e.txs.length then .error .inconsistentSizes
  addTransactions (db.allTxs.flatMap (·.keyImages)) (db.allTxs.map (·.hash)) e.allTxs
  if db.blockExists e.block.hash then .error .blockExists
  if 0 < db.height ∧ db.getBlockHeight e.block.prevId ≠ some (db.height - 1) then
    .error .blockParentDne

def addBlock (db : Db) (e : BlockEntry) : Except DbError Db :=
  match db.addBlockChecks e with
  | .error err => .error err
  | .ok () =>
    if h : db.entries.length + 1 < 2 ^ 63 then
      .ok { entries := db.entries ++ [e]
            spinnerHeights := putSpinnerHeight db.spinnerHeights e.spinPublicKey db.height
            bounded := by simpa using h }
    else .error .mapFull

/-- `pop_block`: the spinner's record goes back to the height stored with the block. -/
def removeBlock (db : Db) : Except DbError (Db × BlockEntry) :=
  match db.entries.getLast? with
  | none => .error .blockDne
  | some e =>
    .ok ({ entries := db.entries.dropLast
           spinnerHeights := putSpinnerHeight db.spinnerHeights e.spinPublicKey e.spinPrevuosHeight
           bounded := by
             have := db.bounded
             rw [List.length_dropLast]
             omega }, e)

section
variable {db db' : Db} {e : BlockEntry}

theorem length_lt (db : Db) : db.entries.length < 2 ^ 64 := Nat.lt_trans db.bounded (by decide)

theorem height_toNat (db : Db) : db.height.toNat = db.entries.length := by
  rw [height, UInt64.toNat_ofNat_of_lt' db.length_lt]

theorem height_pred_toNat (h : 0 < db.entries.length) : (db.height - 1).toNat = db.entries.length - 1 := by
  rw [UInt64.toNat_sub_of_le, height_toNat]
  · rfl
  · rw [UInt64.le_iff_toNat_le, height_toNat]
    exact h

theorem toNat_ofNat_of_lt {i : Nat} (h : i < db.entries.length) : (UInt64.ofNat i).toNat = i :=
  UInt64.toNat_ofNat_of_lt' (Nat.lt_trans h db.length_lt)

theorem addBlockChecks_eq_ok : db.addBlockChecks e = .ok () ↔ e.block.txHashes.length = e.txs.length ∧
      addTransactions (db.allTxs.flatMap (·.keyImages)) (db.allTxs.map (·.hash)) e.allTxs = .ok () ∧
      db.blockExists e.block.hash = false ∧
      (0 < db.height → db.getBlockHeight e.block.prevId = some (db.height - 1)) := by
  unfold addBlockChecks
  by_cases hs : e.block.txHashes.length = e.txs.length
  · cases ht : addTransactions (db.allTxs.flatMap (·.keyImages)) (db.allTxs.map (·.hash))
      e.allTxs with
    | error err => simp [hs, bind, Except.bind]
    | ok u =>
      by_cases hx : db.blockExists e.block.hash = true
      · simp [hs, hx, bind, Except.bind]
      · by_cases hp : 0 < db.height ∧ db.getBlockHeight e.block.prevId ≠ some (db.height - 1)
        · simp [hs, hx, hp, bind, Except.bind]
        · simp only [hs, hx, hp, bind, Except.bind, pure, Except.pure]
          simpa using hp
  · simp [hs, bind, Except.bind]

theorem addBlock_eq_ok (h : db.addBlock e = .ok db') : db.addBlockChecks e = .ok () ∧ db'.entries = db.entries ++ [e] ∧
      db'.spinnerHeights = putSpinnerHeight db.spinnerHeights e.spinPublicKey db.height := by
  unfold addBlock at h
  split at h
  · cases h
  · rename_i hc
    split at h
    · cases h
      exact ⟨hc, rfl, rfl⟩
    · cases h

theorem removeBlock_eq_ok (h : db.removeBlock = .ok (db', e)) : db.entries = db'.entries ++ [e] ∧
      db'.spinnerHeights = putSpinnerHeight db.spinnerHeights e.spinPublicKey e.spinPrevuosHeight := by
  unfold removeBlock at h
  split at h
  · cases h
  · rename_i e' he'
    cases h
    exact ⟨(List.dropLast_append_getLast? _ he').symm, rfl⟩

theorem getSpinnerHeight_put {table : PublicKey → Option UInt64} (pk k : PublicKey) (h : UInt64) :
    (putSpinnerHeight table pk h k).getD 0 = if k = pk then h else (table k).getD 0 := by
  unfold putSpinnerHeight
  split <;> rfl

theorem getSpinnerHeight_addBlock (h : db.addBlock e = .ok db') (pk : PublicKey) :
    db'.getSpinnerHeight pk = if pk = e.spinPublicKey then db.height else db.getSpinnerHeight pk := by
  obtain ⟨_, _, ht⟩ := addBlock_eq_ok h
  rw [getSpinnerHeight, ht, getSpinnerHeight_put, getSpinnerHeight]

theorem getSpinnerHeight_removeBlock (h : db.removeBlock = .ok (db', e)) (pk : PublicKey) : db'.getSpinnerHeight pk =
      if pk = e.spinPublicKey then e.spinPrevuosHeight else db.getSpinnerHeight pk := by
  obtain ⟨_, ht⟩ := removeBlock_eq_ok h
  rw [getSpinnerHeight, ht, getSpinnerHeight_put, getSpinnerHeight]

end

end Db

end Gyro
