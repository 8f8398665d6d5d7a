import Gyro.ChainGyro

/-!
# Finding the fork point

`get_short_chain_history` names blocks ever more sparsely, and the genesis block. The
other node answers in `find_blockchain_supplement` with the first one it has.
-/

namespace Gyro

open Linked Runs WordSum List

def historyHeights (sz : UInt64) : Nat → UInt64 → UInt64 → UInt64 → Option (List UInt64)
  | 0, _, _, _ => none
  | fuel + 1, i, multiplier, backOffset =>
    if backOffset < sz then
      (if i < 10 then historyHeights sz fuel (i + 1) multiplier (backOffset + 1)
        else historyHeights sz fuel (i + 1) (multiplier * 2) (backOffset + multiplier * 2)).map
          ((sz - backOffset) :: ·)
    else some []

/-- `get_short_chain_history`. A height without a block makes the database throw. -/
def getShortChainHistory (fuel : Nat) (db : Db) : Option (List Hash) :=
  if db.height = 0 then some []
  else do
    let heights ← historyHeights db.height fuel 0 1 1
    (if 0 ∈ heights then heights else heights ++ [0]).mapM db.getBlockHashFromHeight

/-- `find_blockchain_supplement`; `none` is `return false`. -/
def findBlockchainSupplement (db : Db) (qblockIds : List Hash) : Option UInt64 :=
  match qblockIds.getLast? with
  | none => none
  | some last =>
    if db.getBlockHashFromHeight 0 ≠ some last then none
    else qblockIds.findSome? db.getBlockHeight

def backOffset (i : Nat) : Nat := if i < 10 then i + 1 else 9 + 2 ^ (i - 9)

theorem backOffset_succ (i : Nat) : backOffset (i + 1) = backOffset i + if i < 10 then 1 else 2 ^ (i - 9) := by
  unfold backOffset
  by_cases hi : i < 10
  · by_cases hn : i + 1 < 10
    · simp [hi, hn]
    · obtain rfl : i = 9 := by omega
      rfl
  · have hp : 2 ^ (i + 1 - 9) = 2 * 2 ^ (i - 9) := by
      rw [show i + 1 - 9 = (i - 9) + 1 by omega, pow_succ']
    simp only [hi, show ¬ i + 1 < 10 by omega, if_false, hp]
    omega

theorem backOffset_lt_succ (i : Nat) : backOffset i < backOffset (i + 1) := by
  rw [backOffset_succ]
  split
  · omega
  · exact Nat.lt_add_of_pos_right (Nat.two_pow_pos _)

theorem backOffset_strictMono : StrictMono backOffset := strictMono_nat_of_lt_succ backOffset_lt_succ

theorem backOffset_succ_le (i : Nat) : backOffset (i + 1) ≤ 2 * backOffset i := by
  rw [backOffset_succ]
  unfold backOffset
  split <;> omega

theorem lt_backOffset (i : Nat) : i < backOffset i := by
  have hp : i - 9 < 2 ^ (i - 9) := Nat.lt_two_pow_self
  unfold backOffset
  split <;> omega

theorem backOffset_unit {i : Nat} (h : i ≤ 10) : backOffset i = i + 1 := by
  unfold backOffset
  by_cases hi : i < 10
  · simp [hi]
  · obtain rfl : i = 10 := by omega
    rfl

/-- The first block named that is more than `d` below the end is at most twice as far, or ten. -/
theorem exists_backOffset (d : Nat) : ∃ j, d < backOffset j ∧ (∀ i < j, backOffset i ≤ d) ∧
    backOffset j - (d + 1) ≤ d ∧ (d ≤ 10 → backOffset j = d + 1) := by
  have hx : ∃ j, d < backOffset j := ⟨d, lt_backOffset d⟩
  have hmi : ∀ i < Nat.find hx, backOffset i ≤ d := fun i hi => Nat.not_lt.mp (Nat.find_min hx hi)
  refine ⟨Nat.find hx, Nat.find_spec hx, hmi, ?_, ?_⟩
  · cases hj : Nat.find hx with
    | zero =>
      have ho : backOffset 0 = 1 := rfl
      omega
    | succ i =>
      have hb := hmi i (by omega)
      have hs := backOffset_succ_le i
      omega
  · intro hd
    have hle : Nat.find hx ≤ d := Nat.find_min' hx (lt_backOffset d)
    have hu := backOffset_unit (Nat.le_trans hle hd)
    have hl := Nat.find_spec hx
    omega

/-! ## The heights named -/

theorem history_step {sz n multiplier offset : UInt64} {i : Nat} (hz : sz.toNat < 2 ^ 63)
    (hn : n.toNat = i) (hu : multiplier.toNat = 2 ^ (i - 10)) (ho : offset.toNat = backOffset i)
    (hl : offset < sz) : (n + 1).toNat = i + 1 ∧
      (if n < 10 then multiplier else multiplier * 2).toNat = 2 ^ (i + 1 - 10) ∧
      (if n < 10 then offset + 1 else offset + multiplier * 2).toNat = backOffset (i + 1) := by
  rw [UInt64.lt_iff_toNat_lt] at hl
  have hi := lt_backOffset i
  have ht : n < 10 ↔ i < 10 := by
    rw [UInt64.lt_iff_toNat_lt, hn]
    rfl
  have hd : ¬ i < 10 → (multiplier * 2).toNat = 2 ^ (i - 9) ∧ 2 ^ (i - 9) < 2 ^ 63 := by
    intro hr
    have hp : 2 ^ (i - 9) = 2 ^ (i - 10) * 2 := by
      rw [← pow_succ, show i - 10 + 1 = i - 9 by omega]
    have hbound : backOffset i = 9 + 2 ^ (i - 9) := if_neg hr
    have htw : (2 : UInt64).toNat = 2 := rfl
    rw [UInt64.toNat_mul, hu, htw, ← hp]
    exact ⟨Nat.mod_eq_of_lt (by omega), by omega⟩
  refine ⟨?_, ?_, ?_⟩
  · rw [add_toNat (by change n.toNat + 1 < 2 ^ 64; omega), hn]
    rfl
  · by_cases hs : i < 10
    · rw [if_pos (ht.mpr hs), hu, show i - 10 = i + 1 - 10 by omega]
    · rw [if_neg (ht.not.mpr hs), (hd hs).1, show i - 9 = i + 1 - 10 by omega]
  · rw [backOffset_succ]
    by_cases hs : i < 10
    · rw [if_pos (ht.mpr hs), if_pos hs, add_toNat (by change offset.toNat + 1 < 2 ^ 64; omega), ho]
      rfl
    · obtain ⟨hp, hbound⟩ := hd hs
      rw [if_neg (ht.not.mpr hs), if_neg hs, add_toNat (by omega), hp, ho]

/-- The loop ends, and names a height for each step back above the genesis block. -/
theorem historyHeights_eq {sz : UInt64} (hz : sz.toNat < 2 ^ 63) {fuel i : Nat} {n multiplier offset : UInt64}
    (hn : n.toNat = i) (hu : multiplier.toNat = 2 ^ (i - 10)) (ho : offset.toNat = backOffset i)
    (hf : sz.toNat - offset.toNat < fuel) :
    ∃ k, sz.toNat ≤ backOffset (i + k) ∧ (∀ j < k, backOffset (i + j) < sz.toNat) ∧
      ∃ hs, historyHeights sz fuel n multiplier offset = some hs ∧
        hs.map UInt64.toNat = (List.range' i k).map fun j => sz.toNat - backOffset j := by
  induction fuel generalizing i n multiplier offset with
  | zero => omega
  | succ fuel ih =>
    unfold historyHeights
    by_cases hl : offset < sz
    · obtain ⟨hn', hmul', ho'⟩ := history_step hz hn hu ho hl
      have hg := backOffset_lt_succ i
      have hl' := UInt64.lt_iff_toNat_lt.mp hl
      obtain ⟨k, hen, hb, hs, hr, hh⟩ := ih hn' hmul' ho' (by omega)
      have hlo : (if n < 10 then historyHeights sz fuel (n + 1) multiplier (offset + 1)
          else historyHeights sz fuel (n + 1) (multiplier * 2) (offset + multiplier * 2)) = some hs := by
        rw [← hr]
        split <;> rfl
      refine ⟨k + 1, by rwa [← Nat.add_assoc, Nat.add_right_comm], ?_, (sz - offset) :: hs, ?_, ?_⟩
      · intro j hj
        cases j with
        | zero => simpa [ho] using hl'
        | succ j => simpa [Nat.add_assoc, Nat.add_comm 1 j] using hb j (by omega)
      · rw [if_pos hl, hlo]
        rfl
      · rw [map_cons, hh, UInt64.toNat_sub_of_le _ _ (UInt64.le_of_lt hl), ho]
        rfl
    · rw [UInt64.lt_iff_toNat_lt] at hl
      refine ⟨0, by simp; omega, by simp, [], ?_, rfl⟩
      rw [if_neg (by rwa [UInt64.lt_iff_toNat_lt])]

structure MetChain (S : Block → Prop) (db : Db) : Prop where
  met : ∀ b ∈ db.blocks, S b
  linked : LinkedBlocks db.blocks.reverse

def Db.idAt (db : Db) (h : Nat) : Hash := ((db.blocks[h]?).map Block.hash).getD nullHash

def namedHeights (n k : Nat) : List Nat := (List.range k).map (fun j => n - backOffset j) ++ [0]

def Common (a b : Db) (h : Nat) : Prop := ∃ x, a.blocks[h]? = some x ∧ b.blocks[h]? = some x

section
variable {S : Block → Prop} {db a b : Db} {h l : Nat} {x : Block} {id : Hash}

theorem Common.lt (hc : Common a b h) : h < a.entries.length := by
  obtain ⟨x, hx, _⟩ := hc
  simpa [Db.blocks] using (List.getElem?_eq_some_iff.mp hx).1

section
variable (hS : Distinct Block.hash nullHash S) (ha : MetChain S a) (hb : MetChain S b)
include hS ha hb

theorem MetChain.common {y : Block} (hx : a.blocks[h]? = some x) (hy : b.blocks[l]? = some y) (hxy : x.hash = y.hash) :
    h = l ∧ ∀ i ≤ h, Common a b i := by
  obtain ⟨rfl, ht⟩ := ha.linked.shared hS hb.linked ha.met hb.met hx hy hxy
  refine ⟨rfl, ?_⟩
  intro i hi
  obtain ⟨hl, _⟩ := List.getElem?_eq_some_iff.mp hx
  have hg := congrArg (·[i]?) ht
  simp only [List.getElem?_take_of_lt (show i < h + 1 by omega)] at hg
  exact ⟨_, List.getElem?_eq_getElem (by omega), hg ▸ List.getElem?_eq_getElem (by omega)⟩

theorem Common.below (hc : Common a b h) (hl : l ≤ h) : Common a b l := by
  obtain ⟨x, hx, hy⟩ := hc
  exact (ha.common hS hb hx hy rfl).2 l hl

end

theorem exists_last_common (h₀ : Common a b 0) : ∃ l, Common a b l ∧ ∀ i, Common a b i → i ≤ l := by
  classical
  refine ⟨Nat.findGreatest (Common a b) a.entries.length, Nat.findGreatest_spec (Nat.zero_le _) h₀, ?_⟩
  intro i hi
  exact Nat.le_findGreatest (Nat.le_of_lt hi.lt) hi

theorem Db.idAt_eq (hx : db.blocks[h]? = some x) : db.idAt h = x.hash := by
  simp [Db.idAt, hx]

theorem Db.exists_block (hl : h < db.entries.length) : ∃ x, db.blocks[h]? = some x :=
  ⟨_, List.getElem?_eq_getElem (by simpa [Db.blocks] using hl)⟩

theorem getBlockHashFromHeight_eq {h : UInt64} (hl : h.toNat < db.entries.length) :
    db.getBlockHashFromHeight h = some (db.idAt h.toNat) := by
  simp [Db.getBlockHashFromHeight, Db.entryAt, Db.idAt, Db.blocks, List.getElem?_eq_getElem hl]

theorem getBlockHeight_blocks : db.getBlockHeight id = (db.blocks.findIdx? (·.hash = id)).map UInt64.ofNat := by
  simp [Db.getBlockHeight, Db.blocks, List.findIdx?_map, Function.comp_def]

theorem MetChain.getBlockHeight_common (hS : Distinct Block.hash nullHash S) (hb : MetChain S b)
    (hx : a.blocks[h]? = some x) (hc : Common a b h) : b.getBlockHeight x.hash = some (UInt64.ofNat h) := by
  obtain ⟨y, hy, hy'⟩ := hc
  obtain rfl : x = y := Option.some.inj (hx.symm.trans hy)
  obtain ⟨hl, hg⟩ := List.getElem?_eq_some_iff.mp hy'
  have hf : b.blocks.findIdx? (·.hash = x.hash) = some h := by
    apply List.findIdx?_eq_some_iff_getElem.mpr
    refine ⟨hl, by simp [hg], ?_⟩
    intro j hj hs
    obtain ⟨hh, _⟩ := hb.common hS hb (List.getElem?_eq_getElem (by omega)) hy'
      (of_decide_eq_true hs)
    omega
  rw [getBlockHeight_blocks, hf]
  rfl

theorem MetChain.getBlockHeight_apart (hS : Distinct Block.hash nullHash S) (ha : MetChain S a)
    (hb : MetChain S b) (hx : a.blocks[h]? = some x) (hc : ¬ Common a b h) : b.getBlockHeight x.hash = none := by
  have hf : b.blocks.findIdx? (·.hash = x.hash) = none := by
    apply List.findIdx?_eq_none_iff.mpr
    intro y hy
    obtain ⟨l, hl, rfl⟩ := getElem_of_mem hy
    apply decide_eq_false
    intro hs
    exact hc ((ha.common hS hb hx (List.getElem?_eq_getElem hl) hs.symm).2 h (Nat.le_refl h))
  rw [getBlockHeight_blocks, hf]
  rfl

theorem mapM_some {α β : Type} {f : α → Option β} {g : α → β} {xs : List α}
    (h : ∀ x ∈ xs, f x = some (g x)) : xs.mapM f = some (xs.map g) := by
  induction xs with
  | nil => rfl
  | cons x xs ih =>
    have hh := h x mem_cons_self
    have ht := ih fun y hy => h y (mem_cons_of_mem _ hy)
    simp [hh, ht]

theorem getShortChainHistory_eq (hne : db.entries ≠ []) {fuel : Nat} (hf : db.entries.length ≤ fuel) :
    ∃ k, db.entries.length ≤ backOffset k ∧ (∀ j < k, backOffset j < db.entries.length) ∧
      getShortChainHistory fuel db = some ((namedHeights db.entries.length k).map db.idAt) := by
  have hp := length_pos_iff.mpr hne
  have hg := Db.height_toNat db
  have ho : (1 : UInt64).toNat = 1 := rfl
  obtain ⟨k, hn, hb, hs, hr, hhe⟩ := @historyHeights_eq db.height (hg ▸ db.bounded) fuel
    0 0 1 1 rfl rfl rfl (by omega)
  rw [hg] at hn hb hhe
  simp only [Nat.zero_add, ← range_eq_range'] at hn hb hhe
  refine ⟨k, hn, hb, ?_⟩
  have hme : ∀ h ∈ hs, 0 < h.toNat ∧ h.toNat < db.entries.length := by
    intro h hh
    have hh' := mem_map_of_mem (f := UInt64.toNat) hh
    rw [hhe] at hh'
    obtain ⟨j, hj, hjh⟩ := mem_map.mp hh'
    have hl := hb j (mem_range.mp hj)
    have ha := lt_backOffset j
    omega
  have hzero : (0 : UInt64) ∉ hs := fun h => absurd (hme 0 h).1 (by decide)
  have hnn : db.height ≠ 0 := by
    intro h
    rw [h] at hg
    exact absurd hg (Nat.ne_of_lt hp)
  have hi : (hs ++ [0]).mapM db.getBlockHashFromHeight =
      some ((hs ++ [0]).map fun h : UInt64 => db.idAt h.toNat) := by
    apply mapM_some
    intro h hh
    apply getBlockHashFromHeight_eq
    obtain hh | hh := mem_append.mp hh
    · exact (hme h hh).2
    · rw [mem_singleton.mp hh]
      exact hp
  unfold getShortChainHistory
  simp only [hnn, if_false, hr, Option.bind_eq_bind, Option.bind_some, hzero, hi]
  simp [namedHeights, ← hhe]

theorem namedHeights_decreasing {n k : Nat} (h : ∀ j < k, backOffset j < n) : (namedHeights n k).Pairwise (· > ·) := by
  apply pairwise_append.mpr
  refine ⟨?_, pairwise_singleton _ _, ?_⟩
  · apply pairwise_map.mpr
    refine (pairwise_lt_range (n := k)).imp_of_mem ?_
    intro i j _ hj hi
    have hl := h j (mem_range.mp hj)
    have ho := backOffset_strictMono hi
    omega
  · intro x hx y hy
    obtain ⟨j, hj, rfl⟩ := mem_map.mp hx
    have hl := h j (mem_range.mp hj)
    rw [mem_singleton.mp hy]
    omega

theorem namedHeights_lt {n k h : Nat} (hn : 0 < n) (hh : h ∈ namedHeights n k) : h < n := by
  obtain hh | hh := mem_append.mp hh
  · obtain ⟨j, _, rfl⟩ := mem_map.mp hh
    have hb := lt_backOffset j
    omega
  · rw [mem_singleton.mp hh]
    exact hn

theorem MetChain.idAt_inj (hS : Distinct Block.hash nullHash S) (ha : MetChain S a) {i : Nat}
    (hi : i < a.entries.length) (hh : h < a.entries.length) (hs : a.idAt i = a.idAt h) : i = h := by
  obtain ⟨x, hx⟩ := Db.exists_block hi
  obtain ⟨y, hy⟩ := Db.exists_block hh
  rw [Db.idAt_eq hx, Db.idAt_eq hy] at hs
  exact (ha.common hS ha hx hy hs).1

theorem namedHeights_split {n k j : Nat} (hk : n ≤ backOffset k) (hj : j ≤ k) :
    ∃ rest, namedHeights n k = (List.range j).map (fun i => n - backOffset i) ++ (n - backOffset j) :: rest := by
  obtain hl | rfl := Nat.lt_or_eq_of_le hj
  · obtain ⟨m, rfl⟩ := Nat.exists_eq_add_of_lt hl
    refine ⟨((List.range m).map fun i => n - backOffset (j + 1 + i)) ++ [0], ?_⟩
    rw [namedHeights, show j + m + 1 = j + (1 + m) by omega, range_add]
    simp [range_succ_eq_map, Nat.add_comm 1 m, Function.comp_def, Nat.add_right_comm, ← Nat.add_assoc]
  · exact ⟨[], by rw [namedHeights, Nat.sub_eq_zero_of_le hk]⟩

theorem find_named (hS : Distinct Block.hash nullHash S) (ha : MetChain S a) (hb : MetChain S b) {k j : Nat}
    (hk : a.entries.length ≤ backOffset k) (ho : Common a b l) (hla : ∀ i, Common a b i → i ≤ l)
    (hj : a.entries.length - 1 - l < backOffset j) (hf : ∀ i < j, backOffset i ≤ a.entries.length - 1 - l) :
    ((namedHeights a.entries.length k).map a.idAt).findSome? b.getBlockHeight =
      some (UInt64.ofNat (a.entries.length - backOffset j)) := by
  have ht := ho.lt
  have hjk : j ≤ k := by
    by_contra hkj
    have := hf k (by omega)
    omega
  obtain ⟨rest, hs⟩ := namedHeights_split hk hjk
  rw [hs, List.findSome?_map]
  apply List.findSome?_eq_some_iff.mpr
  refine ⟨_, _, _, rfl, ?_, ?_⟩
  · have hl : Common a b (a.entries.length - backOffset j) := ho.below hS ha hb (by omega)
    obtain ⟨x, hx, _⟩ := id hl
    rw [Function.comp_apply, Db.idAt_eq hx]
    exact hb.getBlockHeight_common hS hx hl
  · intro h hh
    obtain ⟨i, hi, rfl⟩ := mem_map.mp hh
    have hba := hf i (mem_range.mp hi)
    have hp := lt_backOffset i
    obtain ⟨x, hx⟩ := @Db.exists_block a (a.entries.length - backOffset i) (by omega)
    rw [Function.comp_apply, Db.idAt_eq hx]
    apply ha.getBlockHeight_apart hS hb hx
    intro hc
    have := hla _ hc
    omega

theorem findBlockchainSupplement_eq (hn : Common a b 0) {ids : List Hash}
    (hl : ids.getLast? = some (a.idAt 0)) : findBlockchainSupplement b ids = ids.findSome? b.getBlockHeight := by
  obtain ⟨g, hg, hg'⟩ := hn
  have hp : (0 : UInt64).toNat < b.entries.length := by
    simpa [Db.blocks] using (List.getElem?_eq_some_iff.mp hg').1
  have hf : b.getBlockHashFromHeight 0 = some (a.idAt 0) := by
    rw [getBlockHashFromHeight_eq hp, Db.idAt_eq hg]
    exact congrArg some (Db.idAt_eq hg')
  simp [findBlockchainSupplement, hl, hf]

/-- `b` answers with a common height: the last one when `a` has at most ten blocks above it, and
otherwise no further below it than it is below the tip. -/
theorem fork_point_found (hS : Distinct Block.hash nullHash S) (ha : MetChain S a) (hb : MetChain S b)
    (hgenesis : Common a b 0) {fuel : Nat} (hfuel : a.entries.length ≤ fuel) :
    ∃ (heights : List Nat) (ids : List Hash), getShortChainHistory fuel a = some ids ∧ ids = heights.map a.idAt ∧
      ids.Nodup ∧ heights.Pairwise (· > ·) ∧ heights.getLast? = some 0 ∧
      ∃ last h, Common a b last ∧ (∀ i, Common a b i → i ≤ last) ∧
        findBlockchainSupplement b ids = some h ∧ Common a b h.toNat ∧
        (a.entries.length - 1 - last ≤ 10 → h.toNat = last) ∧
        last - h.toNat ≤ a.entries.length - 1 - last := by
  have hp := hgenesis.lt
  obtain ⟨k, hn, hbe, hid⟩ := getShortChainHistory_eq (length_pos_iff.mp hp) hfuel
  have hd := namedHeights_decreasing hbe
  obtain ⟨last, hl, hma⟩ := exists_last_common hgenesis
  have ht := hl.lt
  obtain ⟨j, hj, hf, hms, hea⟩ := exists_backOffset (a.entries.length - 1 - last)
  have ho := find_named hS ha hb hn hl hma hj hf
  have hg : (UInt64.ofNat (a.entries.length - backOffset j)).toNat = a.entries.length - backOffset j :=
    @Db.toNat_ofNat_of_lt a _ (by omega)
  refine ⟨_, _, hid, rfl, ?_, hd, by simp [namedHeights], last,
    UInt64.ofNat (a.entries.length - backOffset j), hl, hma, ?_, ?_, ?_, ?_⟩
  · apply pairwise_map.mpr
    apply hd.imp_of_mem
    intro i h hi hh hgt hs
    have := ha.idAt_inj hS (namedHeights_lt hp hi) (namedHeights_lt hp hh) hs
    omega
  · rw [findBlockchainSupplement_eq hgenesis (by simp [namedHeights]), ho]
  · exact hl.below hS ha hb (by omega)
  · intro hte
    omega
  · omega

end

namespace Sample

def strayStart : Block := { startBlock config 3 with hash := 2003 }

def strayArrivals : List Arrival :=
  (List.range 3).map (fun h => arrival (startBlock config h)) ++ [arrival strayStart]

def strayBlocks : List Block := strayStart :: (List.range 9).map (startBlock config)

theorem strayBlocks_distinct : Distinct Block.hash nullHash (· ∈ strayBlocks) := by
  constructor
  · intro b c hb hc hh
    have hn : (strayBlocks.map Block.hash).Nodup := by decide +kernel
    exact inj_on_of_nodup_map hn hb hc hh
  · have ha : ∀ b ∈ strayBlocks, b.hash ≠ nullHash := by decide +kernel
    exact ha

end Sample

open Sample in
theorem fork_point_found_among_start_blocks :
    ∃ s t ids h, run (Blockchain.accept (env config) 2) node (startArrivals config) = some s ∧
      run (Blockchain.accept (env config) 2) node strayArrivals = some t ∧
      getShortChainHistory 9 s.db = some ids ∧ ids.Nodup ∧
      findBlockchainSupplement t.db ids = some h ∧ Common s.db t.db h.toNat := by
  have hv : ((run (Blockchain.accept (env config) 2) node (startArrivals config)).map fun s => s.db.blocks) =
      some ((List.range 9).map (startBlock config)) := by decide +kernel
  have hst : ((run (Blockchain.accept (env config) 2) node strayArrivals).map fun s => s.db.blocks) =
      some ((List.range 3).map (startBlock config) ++ [strayStart]) := by decide +kernel
  obtain ⟨s, hs, hl⟩ := Option.map_eq_some_iff.mp hv
  obtain ⟨t, ht, hb'⟩ := Option.map_eq_some_iff.mp hst
  have ha : MetChain (· ∈ strayBlocks) s.db := by
    constructor
    · intro b hb
      rw [hl] at hb
      exact mem_cons_of_mem _ hb
    · rw [hl]
      decide +kernel
  have hb : MetChain (· ∈ strayBlocks) t.db := by
    constructor
    · have hal : ∀ b ∈ (List.range 3).map (startBlock config) ++ [strayStart], b ∈ strayBlocks := by
        decide +kernel
      rwa [hb']
    · rw [hb']
      decide +kernel
  have hn : s.db.entries.length = 9 := by
    have := congrArg List.length hl
    simpa [Db.blocks] using this
  have hg : Common s.db t.db 0 := ⟨startBlock config 0, by rw [hl]; rfl, by rw [hb']; rfl⟩
  obtain ⟨_, ids, hi, _, ho, _, _, _, h, _, _, hf, hc, _⟩ :=
    fork_point_found strayBlocks_distinct ha hb hg (Nat.le_of_eq hn)
  exact ⟨s, t, ids, h, hs, ht, hi, ho, hf, hc⟩

end Gyro
