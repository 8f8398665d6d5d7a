import Gyro.ChainId
import Gyro.ForkSchedule
import Gyro.Lib.Along

/-!
# The distribution of ring-CT outputs

`get_output_distribution` for amount 0. The count stored with a block goes on from the block before
only from major version 4 on, and the tables have no fourth entry to start from.
-/

namespace Gyro

open Prefixes

def numRctOuts (e : BlockEntry) : Nat :=
  (if e.block.spinnerTx.version = 2 then e.block.spinnerTx.vout.length else 0) +
    (e.txs.flatMap (·.vout)).countP (·.amount = 0)

def biCumRct (es : List BlockEntry) : Nat :=
  es.foldl (fun before e => if 4 ≤ e.block.majorVersion then before + numRctOuts e else numRctOuts e) 0

def getBlockCumulativeRctOutputs (db : Db) (heights : List Nat) : Option (List Nat) :=
  if heights.all (· < db.entries.length) then some (heights.map fun h => biCumRct (db.entries.take (h + 1))) else none

structure RctDistribution where
  startHeight : Nat
  distribution : List Nat
  base : Nat

/-- The height of the first block that may have ring-CT outputs; `none` is a read beyond the table. -/
def rctStartHeight : NetworkType → Option Nat
  | .stagenet => stagenetHardForks[3]?.map (·.height.toNat)
  | .testnet => testnetHardForks[3]?.map (·.height.toNat)
  | .mainnet => mainnetHardForks[3]?.map (·.height.toNat)
  | .fakechain => some 0

/-- For amount 0. `some none` is `return false`; `none`, a read beyond the end of a table or a vector, or a
height that wraps. -/
def getOutputDistribution (net : NetworkType) (db : Db) (fromHeight toHeight : Nat) : Option (Option RctDistribution) :=
  match rctStartHeight net with
  | none => none
  | some first =>
    if 0 < toHeight ∧ toHeight < fromHeight then some none
    else
      let startHeight := if first < fromHeight then fromHeight else first
      if db.entries.length = 0 ∨ db.entries.length ≤ startHeight ∨ db.entries.length ≤ toHeight then some none
      else if toHeight + 1 < startHeight then none
      else
        let realStartHeight := if 0 < startHeight then startHeight - 1 else startHeight
        let heights := List.range' realStartHeight (toHeight + 1 - realStartHeight)
        match getBlockCumulativeRctOutputs db heights with
        | none => none
        | some distribution =>
          if 0 < startHeight then
            match distribution with
            | [] => none
            | base :: distribution => some (some { startHeight, distribution, base })
          else some (some { startHeight, distribution, base := 0 })

def rctOuts (es : List BlockEntry) : Nat := (es.map numRctOuts).sum

/-- No error, and what is returned counts the outputs of the main chain. -/
def ExactDistribution (net : NetworkType) (db : Db) (fromHeight toHeight : Nat) : Prop :=
  ∃ r, getOutputDistribution net db fromHeight toHeight = some r ∧ ∀ d ∈ r,
    fromHeight ≤ d.startHeight ∧ d.startHeight ≤ toHeight ∧ d.base = rctOuts (db.entries.take d.startHeight) ∧
    d.distribution = (List.range' d.startHeight (toHeight - d.startHeight + 1)).map
      fun h => rctOuts (db.entries.take (h + 1))

def RctFromFour (es : List BlockEntry) : Prop :=
  Along (fun below e => e.block.majorVersion < 4 → rctOuts below = 0) [] es

section
variable {db : Db} {fromHeight toHeight : Nat}

theorem biCumRct_spec (es : List BlockEntry) :
    biCumRct es ≤ rctOuts es ∧ (biCumRct es = rctOuts es ↔ RctFromFour es) := by
  induction es using List.reverseRecOn with
  | nil => exact ⟨Nat.le_refl _, iff_of_true rfl trivial⟩
  | append_singleton es e ih =>
    obtain ⟨hle, hi⟩ := ih
    have hc : biCumRct (es ++ [e]) =
        if 4 ≤ e.block.majorVersion then biCumRct es + numRctOuts e else numRctOuts e := by
      simp [biCumRct]
    have ho : rctOuts (es ++ [e]) = rctOuts es + numRctOuts e := by simp [rctOuts]
    rw [RctFromFour, along_concat, List.nil_append, ← RctFromFour, ← hi, hc, ho]
    split
    · rename_i hf
      simp [hle, UInt8.not_lt.mpr hf]
    · rename_i hf
      simp only [UInt8.not_le.mp hf, forall_const]
      omega

theorem getOutputDistribution_fakechain (hle : fromHeight ≤ toHeight) :
    getOutputDistribution .fakechain db fromHeight toHeight =
      some (if db.entries.length ≤ toHeight then none else some {
        startHeight := fromHeight
        distribution := (List.range' fromHeight (toHeight - fromHeight + 1)).map fun h => biCumRct (db.entries.take (h + 1))
        base := if 0 < fromHeight then biCumRct (db.entries.take fromHeight) else 0 }) := by
  have ht : (if 0 < fromHeight then fromHeight else 0) = fromHeight := by split <;> omega
  have hr : ¬(0 < toHeight ∧ toHeight < fromHeight) := by omega
  simp only [getOutputDistribution, rctStartHeight, ht, if_neg hr]
  by_cases hs : db.entries.length ≤ toHeight
  · rw [if_pos (by omega), if_pos hs]
  · rw [if_neg (by omega), if_neg (by omega), if_neg hs]
    have hh : ∀ low, fromHeight - 1 ≤ low →
        (List.range' low (toHeight + 1 - low)).all (· < db.entries.length) = true := by
      intro low _
      rw [List.all_eq_true]
      intro n hn
      have := List.mem_range'_1.mp hn
      exact decide_eq_true (by omega)
    simp only [getBlockCumulativeRctOutputs]
    by_cases hp : 0 < fromHeight
    · rw [if_pos hp, if_pos (hh _ (Nat.le_refl _)),
        show toHeight + 1 - (fromHeight - 1) = toHeight - fromHeight + 1 + 1 by omega, List.range'_succ]
      simp [hp, Nat.sub_add_cancel hp]
    · rw [if_neg hp, if_pos (hh _ (Nat.sub_le _ _)),
        show toHeight + 1 - fromHeight = toHeight - fromHeight + 1 by omega]
      simp [hp]

end

def genesisChain : Db where
  entries := [{ block := Sample.genesis, txs := [], weight := 0, coins := 0, gyro := .unit, spinPublicKey := 0,
                spinPrevuosHeight := 0 }]
  spinnerHeights _ := none
  bounded := by decide

end Gyro
