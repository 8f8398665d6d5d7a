import Gyro.Lib.WordSum
import Gyro.Accept

/-!
# The coins in existence

Every block stores how many coins exist after it. The counter is raised by what the
coinbase pays above the fees, in words that may wrap.
-/

namespace Gyro

open Runs WordSum

def feeTotal (txs : List Transaction) : Nat := total (txs.map (·.fee))

def BlockEntry.netCoins (e : BlockEntry) : Int :=
  (total e.block.spinnerTx.amounts : Int) - feeTotal e.txs

def supply (es : List BlockEntry) : Int := (es.map (·.netCoins)).sum

/-- Neither coinbase nor fees wrap, and the coinbase pays out the fees at least. -/
structure BlockEntry.Sound (e : BlockEntry) : Prop where
  coinbase : total e.block.spinnerTx.amounts < 2 ^ 64
  fees : feeTotal e.txs ≤ total e.block.spinnerTx.amounts

section
variable (env : Env)

/-- The reward a block may claim and its fees together fit in a word. -/
def FeesFit (st : Blockchain) (a : Arrival) : Prop :=
  let st := { st with pool := a.pool, blocksTxsCheck := a.blocksTxsCheck }
  ∀ t weight reward, takeTxs env a.now st a.block.txHashes { pool := st.pool, txs := [] } = .ok t →
    blockWeight st a.block t.txs = some weight →
    getBlockReward env.cfg st.db.height (medianWeight env st.db (currentVersion env.cfg st.db)) weight
      (alreadyGeneratedCoins st.db) (currentVersion env.cfg st.db) = some reward →
    reward.toNat + feeTotal t.txs < 2 ^ 64

end

/-- The stored number is that of the coins in existence, up to the cap. -/
structure SupplyOk (db : Db) : Prop where
  coins : ∀ (i : Nat) (e : BlockEntry), db.entries[i]? = some e →
    (e.coins.toNat : Int) = min (supply (db.entries.take (i + 1))) moneySupply.toNat
  sound : ∀ e ∈ db.entries, e.Sound

section
variable {env : Env} {fuel : Nat} {st st' : Blockchain} {a : Arrival} {db : Db} {b : Block}

theorem feeSummary_toNat {txs : List Transaction} (h : feeTotal txs < 2 ^ 64) :
    (feeSummary txs).toNat = feeTotal txs := by
  rw [feeTotal, ← sum_toNat h, List.foldl_map]
  rfl

theorem prevalidate_coinbase {height : UInt64} {version : UInt8}
    (h : prevalidateSpinnerTransaction b height version = true) : total b.spinnerTx.amounts < 2 ^ 64 := by
  unfold prevalidateSpinnerTransaction at h
  split at h
  · simp only [Bool.and_eq_true] at h
    have hc := (foldl_check.mp h.2).2
    exact (Nat.zero_add _).symm.trans_lt hc
  · cases h

theorem validate_eq_some {height weight fee coins reward : UInt64} {version : UInt8} (hv : 2 ≤ version)
    (h : validateSpinnerTransaction env db b height weight fee coins version = some reward) :
    ∃ base, getBlockReward env.cfg height (medianWeight env db version) weight coins version = some base ∧
      b.spinnerTx.amounts.foldl (· + ·) 0 ≤ base + fee ∧ b.spinnerTx.amounts.foldl (· + ·) 0 - fee ≤ base ∧
      reward = b.spinnerTx.amounts.foldl (· + ·) 0 - fee := by
  have hnot : ¬ version < 2 := by simpa using hv
  unfold validateSpinnerTransaction at h
  by_cases hd : version = 3 ∧ ¬ b.spinnerTx.amounts.all isValidDecomposedAmount
  · rw [if_pos hd] at h
    cases h
  · rw [if_neg hd] at h
    cases hb : getBlockReward env.cfg height (medianWeight env db version) weight coins version with
    | none =>
      rw [hb] at h
      cases h
    | some base =>
      rw [hb] at h
      dsimp only at h
      by_cases hr : base + fee < b.spinnerTx.amounts.foldl (· + ·) 0
      · rw [if_pos hr] at h
        cases h
      · rw [if_neg hr, if_neg hnot] at h
        by_cases hs : b.spinnerTx.amounts.foldl (· + ·) 0 - fee ≤ base
        · rw [if_pos hs] at h
          cases h
          exact ⟨base, rfl, UInt64.not_lt.mp hr, hs, rfl⟩
        · rw [if_neg hs] at h
          cases h

theorem sub_toNat_of_fits {money fee base : UInt64} (hf : base.toNat + fee.toNat < 2 ^ 64)
    (hs : money - fee ≤ base) : fee.toNat ≤ money.toNat ∧ (money - fee).toNat = money.toNat - fee.toNat := by
  have ho := money.toNat_lt
  rw [UInt64.le_iff_toNat_le, UInt64.toNat_sub] at hs
  rw [UInt64.toNat_sub]
  omega

theorem nextCoins_toNat {coins reward : UInt64} {generated : Int}
    (h : (coins.toNat : Int) = min generated moneySupply.toNat) :
    ((nextCoins coins reward).toNat : Int) = min (generated + reward.toNat) moneySupply.toNat := by
  have hs : moneySupply.toNat = 2 ^ 64 - 1 := rfl
  unfold nextCoins
  split
  · rename_i hl
    rw [UInt64.lt_iff_toNat_lt, UInt64.toNat_sub] at hl
    rw [UInt64.toNat_add]
    omega
  · rename_i hg
    rw [UInt64.lt_iff_toNat_lt, UInt64.toNat_sub] at hg
    omega

theorem accept_accepted (h : st.accept env fuel a = some st') : ∃ t weight v, Accepted env fuel a.now
      { st with pool := a.pool, blocksTxsCheck := a.blocksTxsCheck } a.block st' t weight v := by
  unfold Blockchain.accept at h
  split at h
  · rename_i st'' hh
    cases h
    exact handle_added hh
  · cases h

theorem accept_generates (hv : 2 ≤ currentVersion env.cfg st.db) (hi : FeesFit env st a)
    (h : st.accept env fuel a = some st') : ∃ e reward, st'.db.entries = st.db.entries ++ [e] ∧ e.Sound ∧
      e.coins = nextCoins (alreadyGeneratedCoins st.db) reward ∧ (reward.toNat : Int) = e.netCoins := by
  obtain ⟨t, weight, v, ha⟩ := accept_accepted h
  obtain ⟨hr, _⟩ := verifyBlock_eq_ok ha.verified
  obtain ⟨base, hb, _, hs, heq⟩ := validate_eq_some hv hr
  have hf := hi t weight base ha.taken ha.weighed hb
  have ho := prevalidate_coinbase (headerRejection_eq_none.mp ha.header).prevalidated
  have hfe := @feeSummary_toNat t.txs (by omega)
  rw [← hfe] at hf
  obtain ⟨hle, hd⟩ := sub_toNat_of_fits hf hs
  rw [sum_toNat ho, hfe] at hle hd
  have hn : st'.db.entries = st.db.entries ++ [newEntry st.db a.block t.txs weight v] :=
    (Db.addBlock_eq_ok ha.written).2.1
  have hso : (newEntry st.db a.block t.txs weight v).Sound := ⟨ho, hle⟩
  refine ⟨newEntry st.db a.block t.txs weight v, v.reward, hn, hso, by rw [newEntry], ?_⟩
  have hne : (newEntry st.db a.block t.txs weight v).netCoins =
      (total a.block.spinnerTx.amounts : Int) - feeTotal t.txs := rfl
  rw [heq, hd]
  omega

theorem supply_concat (es : List BlockEntry) (e : BlockEntry) : supply (es ++ [e]) = supply es + e.netCoins := by
  simp [supply]

theorem SupplyOk.generated (h : SupplyOk db) :
    ((alreadyGeneratedCoins db).toNat : Int) = min (supply db.entries) moneySupply.toNat := by
  unfold alreadyGeneratedCoins
  cases hl : db.entries.getLast? with
  | none =>
    rw [List.getLast?_eq_none_iff.mp hl]
    rfl
  | some e =>
    rw [List.getLast?_eq_getElem?] at hl
    have ht : db.entries.take (db.entries.length - 1 + 1) = db.entries :=
      List.take_of_length_le (by omega)
    have hc := h.coins _ e hl
    rw [ht] at hc
    exact hc

theorem SupplyOk.accept (hs : SupplyOk st.db) (hv : 2 ≤ currentVersion env.cfg st.db)
    (hf : FeesFit env st a) (h : st.accept env fuel a = some st') : SupplyOk st'.db := by
  obtain ⟨e, reward, hn, ho, hc, hne⟩ := accept_generates hv hf h
  constructor
  · intro i e' he'
    rw [hn] at he' ⊢
    obtain ⟨hi, he'⟩ | ⟨rfl, rfl⟩ := LastIndex.getElem?_concat_cases he'
    · rw [List.take_append_of_le_length hi]
      exact hs.coins i e' he'
    · rw [List.take_of_length_le (by simp), supply_concat, ← hne, hc]
      exact nextCoins_toNat hs.generated
  · intro e' he'
    rw [hn] at he'
    obtain he' | he' := List.mem_append.mp he'
    · exact hs.sound e' he'
    · cases List.mem_singleton.mp he'
      exact ho

theorem empty_supplyOk : SupplyOk Db.empty where
  coins i e he := by cases he
  sound e he := by cases he

/-- On a chain accepted at version 2 or above whose fees fit, the stored number is that of the coins
in existence, up to the cap, and nothing wraps. -/
theorem supply_conserved {st₀ : Blockchain} {as : List Arrival} (h₀ : st₀.db = Db.empty)
    (hsteps : EveryStep (Blockchain.accept env fuel)
      (fun s a => 2 ≤ currentVersion env.cfg s.db ∧ FeesFit env s a) st₀ as)
    (hrun : run (Blockchain.accept env fuel) st₀ as = some st) {i : Nat} {e : BlockEntry}
    (he : st.db.entries[i]? = some e) : (supply (st.db.entries.take (i + 1)) < moneySupply.toNat →
        (e.coins.toNat : Int) = supply (st.db.entries.take (i + 1))) ∧
      e.coins ≤ moneySupply ∧ total e.block.spinnerTx.amounts < 2 ^ 64 ∧
      feeTotal e.txs ≤ total e.block.spinnerTx.amounts := by
  have ho : SupplyOk st.db := by
    refine run_invariant (I := fun s => SupplyOk s.db) ?_ ?_ hsteps hrun
    · intro s a t hs hc hse
      exact hs.accept hc.1 hc.2 hse
    · rw [h₀]
      exact empty_supplyOk
  have hso := ho.sound e (List.mem_of_getElem? he)
  have hco := ho.coins i e he
  refine ⟨fun hl => ?_, ?_, hso.coinbase, hso.fees⟩
  · omega
  · rw [UInt64.le_iff_toNat_le]
    omega

end

theorem feesFit_of_no_txs {env : Env} {st : Blockchain} {a : Arrival} (hx : a.block.txHashes = []) : FeesFit env st a := by
  intro t weight reward ht _ _
  rw [hx] at ht
  cases ht
  exact reward.toNat_lt

namespace Sample

def richConfig : Config :=
  { Config.default with
    coin := 0x7fffffffffffffff, emissionSubsidyPerMinute := 1, startAmount := 20000
    hardForks := [{ version := 2, height := 0 }] }

def richBlock (height : Nat) (amount : UInt64) (txHashes : List Hash) : Block :=
  { startBlock richConfig height with
    majorVersion := 2
    minorVersion := 2
    spinnerTx :=
      { coinbase (BitVec.ofNat 256 (5000 + height)) (UInt64.ofNat height) amount [.pubKey 9] with
        unlockTime := UInt64.ofNat height + spinnedMoneyUnlockWindow }
    txHashes }

def burning : Transaction :=
  { hash := 7000, version := 1, unlockTime := 0, vin := [.toKey 0xffffffffffffff9b [0] 3]
    vout := [⟨1, .toKey 4⟩], extra := [], rctSignatures := .null, weight := 200
    fee := 0xffffffffffffff9a, pruned := false }

def burningArrivals : List Arrival :=
  arrival (richBlock 0 0xffffffffffffff9b []) ::
    ((List.range 60).map fun h => arrival (richBlock (h + 1) 0 [])) ++
    [{ arrival (richBlock 61 0 [7000]) with pool := Pool.empty.addTx burning }]

end Sample

open Sample

theorem supply_conserved_in_first_blocks : ∃ s, run (Blockchain.accept (env richConfig) 2) node
        [arrival (richBlock 0 1000 []), arrival (richBlock 1 150 [])] = some s ∧
      ∃ e, s.db.entries[1]? = some e ∧ (e.coins.toNat : Int) = supply (s.db.entries.take 2) := by
  have hv : ((run (Blockchain.accept (env richConfig) 2) node
      [arrival (richBlock 0 1000 []), arrival (richBlock 1 150 [])]).map fun s =>
        decide ((s.db.entries[1]?).isSome = true ∧ supply (s.db.entries.take 2) = 1150)) = some true := by
    decide +kernel
  obtain ⟨s, hr, hd⟩ := Option.map_eq_some_iff.mp hv
  obtain ⟨hs, hp⟩ := of_decide_eq_true hd
  obtain ⟨e, he⟩ := Option.isSome_iff_exists.mp hs
  have ht : EveryStep (Blockchain.accept (env richConfig) 2)
      (fun s a => 2 ≤ currentVersion (env richConfig).cfg s.db ∧ FeesFit (env richConfig) s a) node
      [arrival (richBlock 0 1000 []), arrival (richBlock 1 150 [])] := by
    apply everyStep_of_forall
    intro a ha st
    refine ⟨by simp [currentVersion, forkVersion, env, richConfig], feesFit_of_no_txs ?_⟩
    simp only [List.mem_cons, List.not_mem_nil, or_false] at ha
    obtain rfl | rfl := ha <;> rfl
  refine ⟨s, hr, e, he, (supply_conserved rfl ht hr he).1 ?_⟩
  rw [hp]
  decide

/-- The limit and the fee wrap to 98, the claim less the fee to 102, and the counter is full. -/
theorem supply_counter_wraps : ∃ s e, run (Blockchain.accept (env richConfig) 2) node burningArrivals = some s ∧
      2 ≤ currentVersion richConfig s.db ∧ s.db.entries[61]? = some e ∧
      supply (s.db.entries.take 62) = 1 ∧ e.coins = moneySupply := by
  have hv : ((run (Blockchain.accept (env richConfig) 2) node burningArrivals).map fun s =>
      decide (2 ≤ currentVersion richConfig s.db ∧ (s.db.entries[61]?).map (·.coins) = some moneySupply ∧
        supply (s.db.entries.take 62) = 1)) = some true := by
    decide +kernel
  obtain ⟨s, hr, hd⟩ := Option.map_eq_some_iff.mp hv
  obtain ⟨hve, hc, hs⟩ := of_decide_eq_true hd
  obtain ⟨e, he, ho⟩ := Option.map_eq_some_iff.mp hc
  exact ⟨s, e, hr, hve, he, hs, ho⟩

end Gyro
