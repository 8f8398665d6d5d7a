import Gyro.TxPool
import Gyro.BlockReward
import Gyro.Lib.WordSum

/-!
# Choosing the transactions of a block

`fill_block_template`: the pool's transactions in the order of their fees, as long as
they fit beside a fixed number of bytes for the coinbase.
-/

namespace Gyro

open Keyed WordSum

/-- A number rounded to the 24 bits of a `float`, half to even. -/
def roundToFloat (n : Nat) : Nat :=
  let shift := n.log2 - 23
  let q := n / 2 ^ shift
  let rest := n % 2 ^ shift
  if shift = 0 then n
  else if 2 ^ (shift - 1) < rest ∨ rest = 2 ^ (shift - 1) ∧ q % 2 = 1 then (q + 1) * 2 ^ shift
  else q * 2 ^ shift

/-- `template_accept_threshold`: the product with `1.0f`, back in 64 bits. -/
def templateAcceptThreshold (amount : UInt64) : UInt64 := UInt64.ofNat (roundToFloat amount.toNat)

/-- Whether the private phases are in use, stem transactions are taken, and inputs are good now. -/
structure FillEnv where
  dandelionpp : Bool
  spinningStemTxes : Bool
  readyToGo : PooledTx → Bool

structure Filled where
  txHashes : List Hash
  totalWeight : UInt64
  fee : UInt64
  bestCoinbase : UInt64
  kImages : List PublicKey

def maxTotalWeight (medianWeight : UInt64) (version : UInt8) : UInt64 :=
  if 5 ≤ version then 2 * medianWeight - coinbaseBlobReservedSize
  else 130 * medianWeight / 100 - coinbaseBlobReservedSize

namespace FillEnv

def passedOver (env : FillEnv) (r : PooledTx) : Bool :=
  !r.info.relayMethod.legacy && env.dandelionpp &&
      !(env.spinningStemTxes && r.info.relayMethod = .stem) ||
    r.info.pruned || r.info.isMessage

def take (env : FillEnv) (f : Filled) (r : PooledTx) (coinbase : UInt64) : Filled :=
  if !env.readyToGo r || r.keyImages.any (· ∈ f.kImages) then f
  else
    { txHashes := f.txHashes ++ [r.id]
      totalWeight := f.totalWeight + r.info.weight
      fee := f.fee + r.info.fee
      bestCoinbase := coinbase
      kImages := f.kImages ++ r.keyImages }

/-- From version 5 on a transaction must not lower the coinbase; before, the loop ends above the
median. -/
def fillFrom (env : FillEnv) (cfg : Config) (p : TxPool) (height medianWeight coins : UInt64)
    (version : UInt8) : List SortedEntry → Filled → Filled
  | [], f => f
  | e :: todo, f =>
    match p.lookup e.id with
    | none => fillFrom env cfg p height medianWeight coins version todo f
    | some r =>
      if env.passedOver r || maxTotalWeight medianWeight version < f.totalWeight + r.info.weight then
        fillFrom env cfg p height medianWeight coins version todo f
      else if 5 ≤ version then
        match getBlockReward cfg height medianWeight (f.totalWeight + r.info.weight) coins version with
        | none => fillFrom env cfg p height medianWeight coins version todo f
        | some blockReward =>
          if blockReward + f.fee + r.info.fee < templateAcceptThreshold f.bestCoinbase then
            fillFrom env cfg p height medianWeight coins version todo f
          else
            fillFrom env cfg p height medianWeight coins version todo
              (env.take f r (blockReward + f.fee + r.info.fee))
      else if medianWeight < f.totalWeight then f
      else fillFrom env cfg p height medianWeight coins version todo (env.take f r 0)

def fillBlockTemplate (env : FillEnv) (cfg : Config) (p : TxPool) (height medianWeight coins : UInt64)
    (version : UInt8) : Option Filled :=
  (getBlockReward cfg height medianWeight 0 coins version).map fun bestCoinbase =>
    env.fillFrom cfg p height medianWeight coins version p.sorted
      { txHashes := [], totalWeight := 0, fee := 0, bestCoinbase, kImages := [] }

end FillEnv

namespace TxPool

def listed (p : TxPool) (entries : List SortedEntry) : List PooledTx :=
  entries.filterMap fun e => p.lookup e.id

def weightsOf (p : TxPool) (ids : List Hash) : List UInt64 :=
  (ids.filterMap p.lookup).map (·.info.weight)

def feesOf (p : TxPool) (ids : List Hash) : List UInt64 :=
  (ids.filterMap p.lookup).map (·.info.fee)

end TxPool

structure FilledOk (p : TxPool) (maxTotal : UInt64) (seen : List SortedEntry) (f : Filled) : Prop where
  weight : f.totalWeight = (p.weightsOf f.txHashes).foldl (· + ·) 0
  fee : f.fee = (p.feesOf f.txHashes).foldl (· + ·) 0
  fits : f.totalWeight ≤ maxTotal
  weights_le : total (p.weightsOf f.txHashes) ≤ total ((p.listed seen).map (·.info.weight))
  fees_le : total (p.feesOf f.txHashes) ≤ total ((p.listed seen).map (·.info.fee))

variable {env : FillEnv} {cfg : Config} {p : TxPool} {height medianWeight coins : UInt64}
  {version : UInt8} {maxTotal : UInt64} {seen todo : List SortedEntry} {f : Filled} {e : SortedEntry}
  {r : PooledTx}

theorem FilledOk.skip (h : FilledOk p maxTotal seen f) (more : List SortedEntry) :
    FilledOk p maxTotal (seen ++ more) f := by
  have ho : ∀ g : PooledTx → UInt64,
      total ((p.listed seen).map g) ≤ total ((p.listed (seen ++ more)).map g) := by
    intro g
    simp [TxPool.listed, List.filterMap_append]
  refine ⟨h.weight, h.fee, h.fits, ?_, ?_⟩
  · exact le_trans h.weights_le (ho _)
  · exact le_trans h.fees_le (ho _)

theorem lookup_id (hr : p.lookup e.id = some r) : p.lookup r.id = some r := by
  rw [(find_some_mem hr).2]
  exact hr

theorem FilledOk.take (h : FilledOk p maxTotal seen f) (hr : p.lookup e.id = some r)
    (hf : f.totalWeight + r.info.weight ≤ maxTotal) (coinbase : UInt64) :
    FilledOk p maxTotal (seen ++ [e]) (env.take f r coinbase) := by
  have hl := lookup_id hr
  unfold FillEnv.take
  split
  · exact h.skip [e]
  · constructor
    · simp [TxPool.weightsOf, List.filterMap_append, hl, h.weight]
    · simp [TxPool.feesOf, List.filterMap_append, hl, h.fee]
    · exact hf
    · have hle := h.weights_le
      simp only [TxPool.weightsOf, TxPool.listed] at hle
      simp [TxPool.weightsOf, TxPool.listed, List.filterMap_append, hl, hr, hle]
    · have hle := h.fees_le
      simp only [TxPool.feesOf, TxPool.listed] at hle
      simp [TxPool.feesOf, TxPool.listed, List.filterMap_append, hl, hr, hle]

/-- The loop keeps what passing over an entry and taking one keep. -/
theorem fillFrom_rule {I : List SortedEntry → Filled → Prop} (hs : ∀ {seen f} more, I seen f → I (seen ++ more) f)
    (ht : ∀ {seen f e r}, I seen f → p.lookup e.id = some r → env.passedOver r = false →
      f.totalWeight + r.info.weight ≤ maxTotalWeight medianWeight version →
      ∀ coinbase, I (seen ++ [e]) (env.take f r coinbase)) (h : I seen f) :
    I (seen ++ todo) (env.fillFrom cfg p height medianWeight coins version todo f) := by
  induction todo generalizing seen f with
  | nil => exact hs [] h
  | cons e todo ih =>
    have hc : seen ++ e :: todo = seen ++ [e] ++ todo := by simp
    have hp := ih (hs [e] h)
    rw [hc]
    unfold FillEnv.fillFrom
    split
    · exact hp
    · rename_i r hr
      split
      · exact hp
      · rename_i hf
        simp only [Bool.or_eq_true, decide_eq_true_eq, not_or, Bool.not_eq_true] at hf
        have hk := ht h hr hf.1 (UInt64.not_lt.mp hf.2)
        split
        · split
          · exact hp
          · split
            · exact hp
            · exact ih (hk _)
        · split
          · rw [List.append_assoc]
            exact hs ([e] ++ todo) h
          · exact ih (hk _)

theorem fillBlockTemplate_ok (h : env.fillBlockTemplate cfg p height medianWeight coins version = some f) :
    FilledOk p (maxTotalWeight medianWeight version) p.sorted f := by
  obtain ⟨best, _, rfl⟩ := Option.map_eq_some_iff.mp h
  have hs : FilledOk p (maxTotalWeight medianWeight version) []
      { txHashes := [], totalWeight := 0, fee := 0, bestCoinbase := best, kImages := [] } :=
    ⟨rfl, rfl, UInt64.le_iff_toNat_le.mpr (Nat.zero_le _), le_refl _, le_refl _⟩
  exact fillFrom_rule (fun more h => h.skip more) (fun h hr _ hf => h.take hr hf) hs

/-- What is chosen is ready, no message, and spends no key image twice. -/
structure Chosen (env : FillEnv) (p : TxPool) (f : Filled) : Prop where
  good : ∀ id ∈ f.txHashes, ∃ r, p.lookup id = some r ∧ env.readyToGo r ∧ env.passedOver r = false
  images : f.kImages = (f.txHashes.filterMap p.lookup).flatMap (·.keyImages)
  disjoint : (f.txHashes.filterMap p.lookup).Pairwise fun r s => r.keyImages.Disjoint s.keyImages

theorem Chosen.take (h : Chosen env p f) (hr : p.lookup e.id = some r) (hn : env.passedOver r = false)
    (coinbase : UInt64) : Chosen env p (env.take f r coinbase) := by
  have hl := lookup_id hr
  unfold FillEnv.take
  split
  · exact h
  · rename_i hc
    simp only [Bool.or_eq_true, Bool.not_eq_true', List.any_eq_true, decide_eq_true_eq, not_or, Bool.not_eq_false,
      not_exists, not_and] at hc
    refine ⟨?_, ?_, ?_⟩
    · intro id hi
      obtain ho | hi := List.mem_append.mp hi
      · exact h.good id ho
      · rw [List.mem_singleton.mp hi]
        exact ⟨r, hl, hc.1, hn⟩
    · simp [List.filterMap_append, hl, h.images]
    · rw [List.filterMap_append, List.pairwise_append]
      refine ⟨h.disjoint, by simp [hl], ?_⟩
      intro s hs t ht k hk hk'
      obtain rfl : t = r := by simpa [hl] using ht
      apply hc.2 k hk'
      rw [h.images]
      exact List.mem_flatMap.mpr ⟨s, hs, hk⟩

theorem filled_block_consistent (h : env.fillBlockTemplate cfg p height medianWeight coins version = some f) :
    Chosen env p f ∧ FilledOk p (maxTotalWeight medianWeight version) p.sorted f := by
  refine ⟨?_, fillBlockTemplate_ok h⟩
  obtain ⟨best, _, rfl⟩ := Option.map_eq_some_iff.mp h
  exact @fillFrom_rule env cfg p height medianWeight coins version [] _ _ (fun _ => Chosen env p) (fun _ h => h)
    (fun h hr hn _ => h.take hr hn) ⟨by simp, rfl, .nil⟩

end Gyro
