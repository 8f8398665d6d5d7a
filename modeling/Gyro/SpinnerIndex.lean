import Gyro.Db
import Gyro.Serialization
import Gyro.Lib.Runs

/-!
# The spinner index over additions and removals

`add_block` writes the height under the block's view key, `remove_block` writes back the
height the block carries. Removing keeps the index exact when that is the truth.
-/

namespace Gyro

open Runs LastIndex

inductive DbOp where
  | add (b : Block) (txs : List Transaction) (weight coins : UInt64) (gyro : GyroType)
  | remove

def entryOf (b : Block) (txs : List Transaction) (weight coins : UInt64) (gyro : GyroType) : BlockEntry where
  block := b
  txs := txs
  weight := weight
  coins := coins
  gyro := gyro
  spinPublicKey := b.viewKey
  spinPrevuosHeight := b.spinnerData.nfo.prevuosHeight

namespace Db

def apply (db : Db) : DbOp → Option Db
  | .add b txs weight coins gyro => (db.addBlock (entryOf b txs weight coins gyro)).toOption
  | .remove => db.removeBlock.toOption.map (·.1)

def latestHeight (entries : List BlockEntry) (pk : PublicKey) : UInt64 :=
  ((lastIndex (fun e => e.block.viewKey = pk) entries).map UInt64.ofNat).getD 0

def IndexExact (db : Db) : Prop := ∀ pk, db.getSpinnerHeight pk = latestHeight db.entries pk

def KeysCarried (db : Db) : Prop :=
  ∀ e ∈ db.entries, e.spinPublicKey = e.block.viewKey ∧
    e.spinPrevuosHeight = e.block.spinnerData.nfo.prevuosHeight

def TruthfulRemoval (db : Db) : DbOp → Prop
  | .add .. => True
  | .remove => ∀ rest e, db.entries = rest ++ [e] →
      e.block.spinnerData.nfo.prevuosHeight = latestHeight rest e.block.viewKey

section
variable {db db' : Db} {e : BlockEntry} {op : DbOp} {ops : List DbOp}

theorem latestHeight_concat (entries : List BlockEntry) (e : BlockEntry) (pk : PublicKey) :
    latestHeight (entries ++ [e]) pk =
      if pk = e.block.viewKey then UInt64.ofNat entries.length else latestHeight entries pk := by
  unfold latestHeight
  rw [lastIndex_concat]
  by_cases h : pk = e.block.viewKey
  · simp [h]
  · simp [h, Ne.symm h]

variable {txs : List Transaction}

theorem apply_add {b : Block} {w c : UInt64} {g : GyroType} (h : db.apply (.add b txs w c g) = some db') :
    db.addBlock (entryOf b txs w c g) = .ok db' := by
  change (db.addBlock (entryOf b txs w c g)).toOption = some db' at h
  cases ha : db.addBlock (entryOf b txs w c g) with
  | error err => rw [ha] at h; cases h
  | ok t => rw [ha] at h; cases h; rfl

theorem apply_remove (h : db.apply .remove = some db') : ∃ e, db.removeBlock = .ok (db', e) := by
  change db.removeBlock.toOption.map (·.1) = some db' at h
  cases hr : db.removeBlock with
  | error err => rw [hr] at h; cases h
  | ok t =>
    rw [hr] at h
    cases h
    exact ⟨t.2, rfl⟩

theorem keysCarried_apply (hk : KeysCarried db) (h : db.apply op = some db') : KeysCarried db' := by
  cases op with
  | add b txs w c g =>
    obtain ⟨_, hn, _⟩ := addBlock_eq_ok (apply_add h)
    intro e he
    rw [hn, List.mem_append, List.mem_singleton] at he
    obtain he | rfl := he
    · exact hk e he
    · exact ⟨rfl, rfl⟩
  | remove =>
    obtain ⟨e, hr⟩ := apply_remove h
    obtain ⟨hn, _⟩ := removeBlock_eq_ok hr
    intro e' he'
    exact hk e' (by rw [hn]; exact List.mem_append_left _ he')

theorem indexExact_add {b : Block} {w c : UInt64} {g : GyroType}
    (hx : IndexExact db) (h : db.apply (.add b txs w c g) = some db') : IndexExact db' := by
  have ha := apply_add h
  obtain ⟨_, hn, _⟩ := addBlock_eq_ok ha
  intro pk
  rw [getSpinnerHeight_addBlock ha, hn, latestHeight_concat, hx pk]
  rfl

theorem indexExact_remove (hk : KeysCarried db) (hx : IndexExact db) (h : db.removeBlock = .ok (db', e)) :
    IndexExact db' ↔ e.block.spinnerData.nfo.prevuosHeight = latestHeight db'.entries e.block.viewKey := by
  obtain ⟨hn, _⟩ := removeBlock_eq_ok h
  obtain ⟨hke, hv⟩ := hk e (by rw [hn]; simp)
  constructor
  · intro hx'
    have := hx' e.block.viewKey
    rw [getSpinnerHeight_removeBlock h, hke, if_pos rfl] at this
    rw [← this, hv]
  · intro ht pk
    rw [getSpinnerHeight_removeBlock h, hke, hv]
    by_cases hp : pk = e.block.viewKey
    · rw [if_pos hp, hp, ht]
    · rw [if_neg hp, hx pk, hn, latestHeight_concat, if_neg hp]

theorem empty_exact : KeysCarried empty ∧ IndexExact empty := by
  constructor
  · intro e he
    cases he
  · intro pk
    rfl

theorem reached_exact {s : Db} (hP : EveryStep apply TruthfulRemoval empty ops)
    (hu : run apply empty ops = some s) : KeysCarried s ∧ IndexExact s := by
  refine run_invariant (I := fun s => KeysCarried s ∧ IndexExact s) ?_ empty_exact hP hu
  rintro s op t ⟨hk, hx⟩ ht hs
  refine ⟨keysCarried_apply hk hs, ?_⟩
  cases op with
  | add => exact indexExact_add hx hs
  | remove =>
    obtain ⟨e, hr⟩ := apply_remove hs
    rw [indexExact_remove hk hx hr]
    exact ht t.entries e (removeBlock_eq_ok hr).1

end

def spinnerBlock (id prevId : Hash) (prevuosHeight : UInt64) : Block where
  hash := id
  majorVersion := 1
  minorVersion := 1
  timestamp := 0
  prevId := prevId
  spinnerTx :=
    { hash := id, version := 1, unlockTime := 60, vin := [], vout := [], rctSignatures := .null
      weight := 100, fee := 0, pruned := false
      extra := [.spinData (writeSpinnerData
        { SpinnerData.zero with
          nfo := { SpinnerInfo.zero with
            adr := { spendPublicKey := 1, viewPublicKey := 2 }
            prevuosHeight := prevuosHeight } })] }
  txHashes := []

def addAndRemove (prevuosHeight : UInt64) : List DbOp :=
  [.add (spinnerBlock 1 0 0) [] 100 0 GyroType.unit, .add (spinnerBlock 2 1 0) [] 100 0 GyroType.unit,
   .add (spinnerBlock 3 2 prevuosHeight) [] 100 0 GyroType.unit, .remove]

def recorded (db : Db) : UInt64 × UInt64 := (db.getSpinnerHeight 2, latestHeight db.entries 2)

end Db

end Gyro
