import Gyro.BlockTemplate
import Gyro.Lib.RollingInsert

/-!
# Long-term block weights

Every block is stored with a long-term weight, capped from version 10 on by the median
of those before it, which a rolling structure keeps while a tip hash and a size agree.
-/

open Linked Runs RollingMedian

namespace Gyro

open List

structure WeighedBlock where
  id : Hash
  prevId : Hash
  weight : UInt64
  deriving DecidableEq

def rollingMedian (r : Rolling UInt64) : UInt64 :=
  if r.minCt < r.maxCt then (r.val 0 + r.val (-1)) / 2 else r.val 0

/-- The stored chain, oldest first, its long-term weights, and the members computed from them. -/
structure LongTerm where
  blocks : List WeighedBlock
  longTermWeights : List UInt64
  tipHash : Hash
  rolling : Rolling UInt64
  effectiveMedian : UInt64
  cumulWeightMedian : UInt64
  cumulWeightLimit : UInt64

def grantedZone : UInt64 := 300000

def shortTermConstraint (effective : UInt64) : UInt64 := effective + effective * 2 / 5

def lastBlocksWeights (blocks : List WeighedBlock) (count : Nat) : List UInt64 :=
  (window count blocks).map (·.weight)

namespace LongTerm

def height (s : LongTerm) : Nat := s.blocks.length

def weightsWindow (s : LongTerm) : Nat := s.rolling.capacity

def idAt (s : LongTerm) (h : Nat) : Option Hash := s.blocks[h]?.map (·.id)

/-- It throws when asked for nothing, and the database when asked above its height. -/
def getLongTermBlockWeightMedian (s : LongTerm) (start count : Nat) : Option (UInt64 × LongTerm) :=
  if count = 0 then none
  else
    let tipHeight := start + count - 1
    let sized := tipHeight < s.height ∧ count = s.rolling.sz
    let tipHash := if sized then (s.idAt tipHeight).getD nullHash else nullHash
    if sized ∧ tipHash = s.tipHash then some (rollingMedian s.rolling, s)
    else if 0 < tipHeight ∧ sized ∧ s.idAt (tipHeight - 1) = some s.tipHash then
      -- the window has moved one block up
      let rolling := s.rolling.insert (s.longTermWeights.getD tipHeight 0)
      some (rollingMedian rolling, { s with tipHash := tipHash, rolling := rolling })
    else if s.height ≤ start then none
    else
      let weights := (s.longTermWeights.drop start).take count
      let rolling := weights.foldl Rolling.insert s.rolling.clear
      some (rollingMedian rolling, { s with tipHash := tipHash, rolling := rolling })

section
variable (version : List WeighedBlock → UInt8)

def getNextLongTermBlockWeight (s : LongTerm) (weight : UInt64) : Option (UInt64 × LongTerm) :=
  let nblocks := min s.weightsWindow s.height
  if version s.blocks < 10 then some (weight, s)
  else
    (s.getLongTermBlockWeightMedian (s.height - nblocks) nblocks).map fun (median, s) =>
      (min weight (shortTermConstraint (max grantedZone median)), s)

def updateBlocks (s : LongTerm) : Nat :=
  let nblocks := min s.weightsWindow s.height
  if nblocks = s.height then nblocks - 1 else nblocks

def updateLongTerm (s : LongTerm) (top : WeighedBlock) : Option LongTerm :=
  if s.height = 1 then
    let weight := min top.weight (shortTermConstraint (max grantedZone grantedZone))
    some { s with effectiveMedian := max grantedZone weight }
  else
    (s.getLongTermBlockWeightMedian (s.height - s.updateBlocks - 1) s.updateBlocks).map fun (median, s) =>
      let weight := min top.weight (shortTermConstraint (max grantedZone median))
      let rolling := s.rolling.insert weight
      { s with
        tipHash := top.id
        rolling := rolling
        effectiveMedian := max grantedZone (rollingMedian rolling) }

def setLimit (s : LongTerm) (median : UInt64) : LongTerm :=
  let zone := getMinBlockWeight (version s.blocks)
  let median := if median ≤ zone then zone else median
  { s with cumulWeightMedian := median, cumulWeightLimit := median * 2 }

/-- The long-term median times the surge factor bounds the median of the last blocks. -/
def surgeMedian (shortTerm effective : UInt64) : UInt64 := min (max grantedZone shortTerm) (50 * effective)

/-- `update_next_cumulative_weight_limit`. From version 10 on it throws on an empty chain. -/
def updateNextCumulativeWeightLimit (s : LongTerm) : Option LongTerm :=
  let shortTerm := median (lastBlocksWeights s.blocks 100)
  if version s.blocks < 10 then some (s.setLimit version shortTerm)
  else
    match s.blocks.getLast? with
    | none => none
    | some top =>
      (s.updateLongTerm top).map fun s => s.setLimit version (surgeMedian shortTerm s.effectiveMedian)

end

def topId (s : LongTerm) : Hash := (s.blocks.getLast?.map (·.id)).getD nullHash

inductive Op where
  | add (b : WeighedBlock)
  | pop
  | update
  | next (weight : UInt64)

/-- One operation; `none` is an exception. A block of another parent is not added. -/
def step (version : List WeighedBlock → UInt8) (s : LongTerm) : Op → Option LongTerm
  | .add b =>
    if b.prevId ≠ s.topId then none
    else
      (s.getNextLongTermBlockWeight version b.weight).map fun (weight, s) =>
        { s with blocks := s.blocks ++ [b], longTermWeights := s.longTermWeights ++ [weight] }
  | .pop =>
    if s.blocks = [] then none
    else some { s with blocks := s.blocks.dropLast, longTermWeights := s.longTermWeights.dropLast }
  | .update => s.updateNextCumulativeWeightLimit version
  | .next weight => (s.getNextLongTermBlockWeight version weight).map (·.2)

def start (window : Nat) : LongTerm where
  blocks := []
  longTermWeights := []
  tipHash := nullHash
  rolling := Rolling.empty window 0
  effectiveMedian := 0
  cumulWeightMedian := 0
  cumulWeightLimit := 0

end LongTerm

theorem rollingMedian_eq {r : Rolling UInt64} {xs : List UInt64} (h : Follows r xs) (hn : xs ≠ []) :
    rollingMedian r = median (window r.capacity xs) := by
  have hlen : (window r.capacity xs).length = r.sz := by rw [window_length, h.sz_eq]
  have hpos : 0 < r.sz := by
    have hc := h.valid.placed.capacity_pos
    have hx := length_pos_iff.mpr hn
    rw [h.sz_eq]
    omega
  have hn' : window r.capacity xs ≠ [] := ne_nil_of_length_pos (by omega)
  obtain ⟨hi, hb⟩ := h.valid.middle hpos (sorted_pairwise (window r.capacity xs))
    (by rw [h.content]; exact sorted_perm _)
  have hmn := h.valid.placed.minCt_eq
  have ha := h.valid.placed.maxCt_eq
  rw [median_eq hn', hlen]
  unfold rollingMedian
  by_cases ho : r.sz % 2 = 1
  · rw [if_neg (by omega), if_pos ho, List.getD_eq_getElem?_getD, hi]
    rfl
  · have hl : r.minCt < r.maxCt := by omega
    rw [if_pos hl, if_neg ho, List.getD_eq_getElem?_getD, List.getD_eq_getElem?_getD, hi, hb hl]
    simp only [Option.getD_some]
    rw [UInt64.add_comm]

/-! ## Without the cache

What the weights and the limit are, read off the chain. -/

section Plain
variable (version : List WeighedBlock → UInt8) (n : Nat)

def plainNext (blocks : List WeighedBlock) (ws : List UInt64) (weight : UInt64) : UInt64 :=
  if version blocks < 10 then weight
  else min weight (shortTermConstraint (max grantedZone (median (window n ws))))

def plainWeights (blocks : List WeighedBlock) : List UInt64 :=
  (blocks.foldl (fun (done, ws) b => (done ++ [b], ws ++ [plainNext version n done ws b.weight])) ([], [])).2

def plainEffective (blocks : List WeighedBlock) : UInt64 :=
  max grantedZone
    (match blocks with
    | [b] => min b.weight (shortTermConstraint grantedZone)
    | _ => median (window n (plainWeights version n blocks)))

def plainLimit (blocks : List WeighedBlock) : UInt64 :=
  let shortTerm := median (lastBlocksWeights blocks 100)
  let median := if version blocks < 10 then shortTerm
    else LongTerm.surgeMedian shortTerm (plainEffective version n blocks)
  let zone := getMinBlockWeight (version blocks)
  (if median ≤ zone then zone else median) * 2

/-- A block stored below version 10 that brings the chain to it is within the cap. -/
def Capped (blocks : List WeighedBlock) (ws : List UInt64) (b : WeighedBlock) : Prop :=
  version blocks < 10 → 10 ≤ version (blocks ++ [b]) → blocks ≠ [] →
    b.weight ≤ shortTermConstraint (max grantedZone (median (window n ws)))

end Plain

section
variable {version : List WeighedBlock → UInt8} {n : Nat} {blocks : List WeighedBlock} {b : WeighedBlock}

theorem plainWeights_concat : plainWeights version n (blocks ++ [b]) = plainWeights version n blocks ++
    [plainNext version n blocks (plainWeights version n blocks) b.weight] := by
  have hd : ∀ (bs done : List WeighedBlock) (ws : List UInt64),
      (bs.foldl (fun (done, ws) b => (done ++ [b], ws ++ [plainNext version n done ws b.weight]))
        (done, ws)).1 = done ++ bs := by
    intro bs
    induction bs with
    | nil => simp
    | cons b bs ih =>
      intro done ws
      simp [ih]
  have hf := hd blocks [] []
  unfold plainWeights
  simp only [foldl_append, foldl_cons, foldl_nil, hf, nil_append]

theorem plainWeights_length (blocks : List WeighedBlock) : (plainWeights version n blocks).length = blocks.length := by
  induction blocks using List.reverseRecOn with
  | nil => rfl
  | append_singleton blocks b ih => simp [plainWeights_concat, ih]

theorem plainWeights_take (blocks : List WeighedBlock) (k : Nat) :
    plainWeights version n (blocks.take k) = (plainWeights version n blocks).take k := by
  induction blocks using List.reverseRecOn with
  | nil => simp [plainWeights]
  | append_singleton blocks b ih =>
    by_cases hk : k ≤ blocks.length
    · rw [take_append_of_le_length hk, ih, plainWeights_concat,
        take_append_of_le_length (by rw [plainWeights_length]; exact hk)]
    · rw [take_of_length_le (by simp; omega), take_of_length_le (by rw [plainWeights_length]; simp; omega)]

variable {S : WeighedBlock → Prop} {s t : LongTerm} {k : Nat}

abbrev LinkedWeights (blocks : List WeighedBlock) : Prop :=
  IsLinked WeighedBlock.id WeighedBlock.prevId nullHash blocks

structure WeighedChain (S : WeighedBlock → Prop) (blocks : List WeighedBlock) : Prop where
  linked : LinkedWeights blocks.reverse
  met : ∀ b ∈ blocks, S b

/-- The structure holds the weights of a chain that ends in the tip, or the tip names no block. -/
def TipRight (version : List WeighedBlock → UInt8) (n : Nat) (S : WeighedBlock → Prop) (s : LongTerm) : Prop :=
  s.tipHash = nullHash ∨ ∃ blocks, WeighedChain S blocks ∧ blocks.getLast?.map (·.id) = some s.tipHash ∧
    Follows s.rolling (plainWeights version n blocks)

/-- The stored weights are those of the chain, and the cache is right for its tip. -/
structure Cached (version : List WeighedBlock → UInt8) (n : Nat) (S : WeighedBlock → Prop) (s : LongTerm) : Prop where
  chain : WeighedChain S s.blocks
  weights : s.longTermWeights = plainWeights version n s.blocks
  capacity : s.rolling.capacity = n
  tip : TipRight version n S s
  capped : ∀ blocks b, blocks ++ [b] <+: s.blocks →
    Capped version n blocks (plainWeights version n blocks) b

theorem WeighedChain.take (h : WeighedChain S blocks) (k : Nat) : WeighedChain S (blocks.take k) where
  linked := by
    have hl := h.linked
    rw [← take_append_drop k blocks, reverse_append] at hl
    exact hl.of_append
  met := fun b hb => h.met b (mem_of_mem_take hb)

theorem Cached.follows_of_tip (hS : Distinct WeighedBlock.id nullHash S) (h : Cached version n S s)
    (hi : s.idAt k = some s.tipHash) : Follows s.rolling (plainWeights version n (s.blocks.take (k + 1))) := by
  obtain ⟨b, hb, ht⟩ := Option.map_eq_some_iff.mp hi
  have hs : S b := h.chain.met b (List.mem_of_getElem? hb)
  rcases h.tip with hn | ⟨blocks, hh, hl, hf⟩
  · exact absurd (ht.trans hn) (hS.not_root b hs)
  · obtain ⟨c, hc, hct⟩ := Option.map_eq_some_iff.mp hl
    rw [List.getLast?_eq_getElem?] at hc
    obtain ⟨-, ha⟩ := h.chain.linked.shared hS hh.linked h.chain.met hh.met hb hc
      (ht.trans hct.symm)
    have hpos : 0 < blocks.length := by
      have := (List.getElem?_eq_some_iff.mp hc).1
      omega
    rw [ha, Nat.sub_add_cancel hpos, take_length]
    exact hf

theorem LongTerm.idAt_of_lt (s : LongTerm) (hk : k < s.height) : ∃ id, s.idAt k = some id :=
  ⟨s.blocks[k].id, by simp [LongTerm.idAt, List.getElem?_eq_getElem hk]⟩

theorem window_take (ws : List UInt64) (hk : k ≤ ws.length) :
    (ws.drop (k - min n k)).take (min n k) = window n (ws.take k) := by
  have hlen : (ws.take k).length = k := by simp [hk]
  have hn : k - min n k = k - n := by omega
  rw [window, hlen, hn, drop_take]
  congr 1
  omega

def Answered (version : List WeighedBlock → UInt8) (n : Nat) (s : LongTerm) (k : Nat)
    (answer : Option (UInt64 × LongTerm)) : Prop :=
  ∃ tip r, answer = some (median ((s.longTermWeights.drop (k - min n k)).take (min n k)),
      { s with tipHash := tip, rolling := r }) ∧
    r.capacity = n ∧ Follows r (plainWeights version n (s.blocks.take k)) ∧
    (tip = nullHash ∨ s.idAt (k - 1) = some tip)

theorem Cached.length_eq (h : Cached version n S s) : s.longTermWeights.length = s.height := by
  rw [h.weights, plainWeights_length]
  rfl

theorem Cached.slice_eq (h : Cached version n S s) (hk : k ≤ s.height) :
    (s.longTermWeights.drop (k - min n k)).take (min n k) = window n (plainWeights version n (s.blocks.take k)) := by
  rw [window_take s.longTermWeights (h.length_eq ▸ hk), h.weights, plainWeights_take]

theorem Cached.answered (h : Cached version n S s) (hpos : 0 < k) (hk : k ≤ s.height)
    {r : Rolling UInt64} {tip : Hash} (hc : r.capacity = n)
    (hf : Follows r (plainWeights version n (s.blocks.take k))) (ht : tip = nullHash ∨ s.idAt (k - 1) = some tip) :
    Answered version n s k (some (rollingMedian r, { s with tipHash := tip, rolling := r })) := by
  have hn : plainWeights version n (s.blocks.take k) ≠ [] := by
    apply ne_nil_of_length_pos
    rw [plainWeights_length, length_take]
    change k ≤ s.blocks.length at hk
    omega
  refine ⟨tip, r, ?_, hc, hf, ht⟩
  rw [rollingMedian_eq hf hn, h.slice_eq hk, hc]

/-- The median of the last weights of the first `k` blocks, found in one of three ways. -/
theorem Cached.query (hS : Distinct WeighedBlock.id nullHash S) (hn : 0 < n) (h : Cached version n S s)
    (hpos : 0 < k) (hk : k ≤ s.height) :
    Answered version n s k (s.getLongTermBlockWeightMedian (k - min n k) (min n k)) := by
  have hh : k - min n k + min n k - 1 = k - 1 := by omega
  have hsa : ¬ s.height ≤ k - min n k := by omega
  have hco : ¬ min n k = 0 := by omega
  obtain ⟨tipId, ht⟩ := s.idAt_of_lt (k := k - 1) (by omega)
  simp only [LongTerm.getLongTermBlockWeightMedian, hh, if_neg hsa, if_neg hco]
  -- recomputed from the database
  have hr : ∀ tip, (tip = nullHash ∨ s.idAt (k - 1) = some tip) → Answered version n s k
      (some (rollingMedian (((s.longTermWeights.drop (k - min n k)).take (min n k)).foldl
          Rolling.insert s.rolling.clear), { s with
          tipHash := tip
          rolling := ((s.longTermWeights.drop (k - min n k)).take (min n k)).foldl
            Rolling.insert s.rolling.clear })) := by
    intro tip hi
    have hl : 0 < s.rolling.capacity := h.capacity ▸ hn
    have ha := insertAll_capacity (follows_clear hl).valid
      ((s.longTermWeights.drop (k - min n k)).take (min n k))
    have hal := (follows_clear hl).insertAll ((s.longTermWeights.drop (k - min n k)).take (min n k))
    have hc' := ha.trans h.capacity
    apply h.answered hpos hk hc' _ hi
    refine ⟨hal.valid, hal.content.trans ?_⟩
    rw [hc', nil_append, h.slice_eq hk, window_of_le]
    simp only [window_length]
    omega
  by_cases hs : k - 1 < s.height ∧ min n k = s.rolling.sz
  · simp only [if_pos hs, ht, Option.getD_some]
    by_cases hc : tipId = s.tipHash
    · -- answered by the cache
      rw [if_pos ⟨hs, hc⟩]
      have hf := h.follows_of_tip hS (hc ▸ ht)
      rw [Nat.sub_add_cancel hpos] at hf
      exact h.answered hpos hk h.capacity hf (Or.inr (hc ▸ ht))
    · rw [if_neg fun hb => hc hb.2]
      by_cases ho : 0 < k - 1 ∧ s.idAt (k - 1 - 1) = some s.tipHash
      · -- the window moves one block up
        rw [if_pos ⟨ho.1, hs, ho.2⟩]
        have hf := (h.follows_of_tip hS ho.2).insert (s.longTermWeights.getD (k - 1) 0)
        have ha := ((h.follows_of_tip hS ho.2).valid.insert_capacity
          (v := s.longTermWeights.getD (k - 1) 0)).trans h.capacity
        apply h.answered hpos hk ha _ (Or.inr ht)
        rw [Nat.sub_add_cancel ho.1, plainWeights_take, ← h.weights] at hf
        rw [plainWeights_take, ← h.weights, ← Nat.sub_add_cancel hpos]
        have hlt : k - 1 < s.longTermWeights.length := by rw [h.length_eq]; omega
        simpa [List.getElem?_eq_getElem hlt] using hf
      · rw [if_neg fun hb => ho ⟨hb.1, hb.2.2⟩]
        exact hr tipId (Or.inr ht)
  · rw [if_neg fun hb => hs hb.1, if_neg fun hb => hs hb.2.1, if_neg hs]
    exact hr nullHash (Or.inl rfl)

theorem Cached.of_answered (h : Cached version n S s) (hpos : 0 < k) {m : UInt64}
    (ha : Answered version n s k (some (m, t))) :
    Cached version n S t ∧ t.blocks = s.blocks ∧ t.longTermWeights = s.longTermWeights ∧
      m = median ((s.longTermWeights.drop (k - min n k)).take (min n k)) ∧
      Follows t.rolling (plainWeights version n (s.blocks.take k)) := by
  obtain ⟨tip, r, hs, hc, hf, ht⟩ := ha
  obtain ⟨rfl, rfl⟩ := Prod.mk.inj (Option.some.inj hs)
  refine ⟨⟨h.chain, h.weights, hc, ?_, h.capped⟩, rfl, rfl, rfl, hf⟩
  refine ht.imp id fun hi => ⟨s.blocks.take k, h.chain.take k, ?_, hf⟩
  obtain ⟨b, hb, hbi⟩ := Option.map_eq_some_iff.mp hi
  have hlt := (List.getElem?_eq_some_iff.mp hb).1
  have hl : (s.blocks.take k).getLast? = some b := by
    rw [List.getLast?_eq_getElem?, length_take, Nat.min_eq_left (by omega), List.getElem?_take_of_lt (by omega)]
    exact hb
  rw [hl, Option.map_some, hbi]

theorem Cached.next (hS : Distinct WeighedBlock.id nullHash S) (hn : 0 < n) (h : Cached version n S s)
    {w l : UInt64} (hx : s.getNextLongTermBlockWeight version w = some (l, t)) :
    Cached version n S t ∧ t.blocks = s.blocks ∧ t.longTermWeights = s.longTermWeights ∧
      l = plainNext version n s.blocks s.longTermWeights w := by
  unfold LongTerm.getNextLongTermBlockWeight at hx
  simp only [LongTerm.weightsWindow, h.capacity] at hx
  unfold plainNext
  by_cases hv : version s.blocks < 10
  · rw [if_pos hv] at hx ⊢
    cases hx
    exact ⟨h, rfl, rfl, rfl⟩
  · rw [if_neg hv] at hx ⊢
    obtain ⟨⟨m, u⟩, hm, heq⟩ := Option.map_eq_some_iff.mp hx
    cases heq
    have hpos : 0 < s.height := by
      by_contra hzero
      have hzero : s.height = 0 := by omega
      simp [hzero, LongTerm.getLongTermBlockWeightMedian] at hm
    have ha := h.query hS hn hpos (Nat.le_refl _)
    rw [hm] at ha
    obtain ⟨hc, hb, hwe, hme, -⟩ := h.of_answered hpos ha
    refine ⟨hc, hb, hwe, ?_⟩
    rw [hme, h.slice_eq (Nat.le_refl _)]
    simp only [LongTerm.height, take_length, ← h.weights]

theorem Cached.updateBlocks_eq (h : Cached version n S s) (hpos : 0 < s.height) :
    s.updateBlocks = min n (s.height - 1) ∧ s.height - s.updateBlocks - 1 = s.height - 1 - min n (s.height - 1) := by
  have heq : s.updateBlocks = min n (s.height - 1) := by
    simp only [LongTerm.updateBlocks, LongTerm.weightsWindow, h.capacity]
    split_ifs <;> omega
  rw [heq]
  exact ⟨rfl, by omega⟩

theorem Cached.inserted_eq (h : Cached version n S s) (hb : s.blocks = blocks ++ [b])
    (hn : blocks ≠ []) (hv : ¬ version s.blocks < 10) :
    min b.weight (shortTermConstraint (max grantedZone (median (window n (plainWeights version n blocks))))) =
      plainNext version n blocks (plainWeights version n blocks) b.weight := by
  unfold plainNext
  by_cases hbe : version blocks < 10
  · rw [if_pos hbe]
    have hc := h.capped blocks b (hb ▸ prefix_refl _) hbe (hb ▸ UInt8.not_lt.mp hv) hn
    exact if_pos hc
  · rw [if_neg hbe]

theorem Cached.updateLongTerm (hS : Distinct WeighedBlock.id nullHash S) (hn : 0 < n)
    (h : Cached version n S s) (hb : s.blocks = blocks ++ [b]) (hv : ¬ version s.blocks < 10)
    (hp : s.updateLongTerm b = some t) :
    Cached version n S t ∧ t.blocks = s.blocks ∧ t.longTermWeights = s.longTermWeights ∧
      t.effectiveMedian = plainEffective version n s.blocks := by
  have hh : s.height = blocks.length + 1 := by simp [LongTerm.height, hb]
  unfold LongTerm.updateLongTerm at hp
  by_cases ho : s.height = 1
  · rw [if_pos ho] at hp
    cases hp
    have hni : blocks = [] := length_eq_zero_iff.mp (by omega)
    subst hni
    refine ⟨⟨h.chain, h.weights, h.capacity, h.tip, h.capped⟩, rfl, rfl, ?_⟩
    have hs : max grantedZone grantedZone = grantedZone := by decide
    simp [plainEffective, hb, hs]
  · rw [if_neg ho] at hp
    obtain ⟨⟨m, u⟩, hm, heq⟩ := Option.map_eq_some_iff.mp hp
    cases heq
    obtain ⟨hl, hsa⟩ := h.updateBlocks_eq (by omega)
    have hne : blocks ≠ [] := by
      rintro rfl
      exact ho (by simp [hh])
    have ha := h.query hS hn (k := s.height - 1) (by omega) (by omega)
    rw [hsa, hl] at hm
    rw [hm] at ha
    obtain ⟨hu, hub, huw, hme, hf⟩ := h.of_answered (by omega) ha
    have ht : s.blocks.take (s.height - 1) = blocks := by
      rw [hh, hb]
      simp
    rw [h.slice_eq (by omega), ht] at hme
    rw [ht] at hf
    have hi := hf.insert
      (min b.weight (shortTermConstraint (max grantedZone (median (window n (plainWeights version n blocks))))))
    have hc := (hf.valid.insert_capacity (v := min b.weight
      (shortTermConstraint (max grantedZone (median (window n (plainWeights version n blocks))))))).trans
      hu.capacity
    subst hme
    dsimp only
    rw [h.inserted_eq hb hne hv] at hi hc ⊢
    rw [← plainWeights_concat, ← hb] at hi
    have hla : s.blocks.getLast?.map (·.id) = some b.id := by simp [hb]
    refine ⟨⟨hub ▸ h.chain, hu.weights, hc, Or.inr ⟨s.blocks, h.chain, hla, hi⟩, hu.capped⟩, hub, huw, ?_⟩
    have hfu : plainWeights version n s.blocks ≠ [] := by
      apply ne_nil_of_length_pos
      rw [plainWeights_length, hb]
      simp
    have hsh : plainEffective version n s.blocks =
        max grantedZone (median (window n (plainWeights version n s.blocks))) := by
      obtain ⟨c, cs, rfl⟩ := exists_cons_of_ne_nil hne
      rw [hb]
      simp [plainEffective]
    rw [hsh, rollingMedian_eq hi hfu, hc]

@[simp] theorem LongTerm.setLimit_blocks (s : LongTerm) (m : UInt64) : (s.setLimit version m).blocks = s.blocks := rfl

@[simp] theorem LongTerm.setLimit_longTermWeights (s : LongTerm) (m : UInt64) :
    (s.setLimit version m).longTermWeights = s.longTermWeights := rfl

theorem Cached.setLimit (h : Cached version n S s) (m : UInt64) : Cached version n S (s.setLimit version m) :=
  ⟨h.chain, h.weights, h.capacity, h.tip, h.capped⟩

theorem Cached.update (hS : Distinct WeighedBlock.id nullHash S) (hn : 0 < n) (h : Cached version n S s)
    (hp : s.updateNextCumulativeWeightLimit version = some t) :
    Cached version n S t ∧ t.blocks = s.blocks ∧ t.longTermWeights = s.longTermWeights ∧
      t.cumulWeightLimit = plainLimit version n s.blocks := by
  unfold LongTerm.updateNextCumulativeWeightLimit at hp
  by_cases hv : version s.blocks < 10
  · simp only [if_pos hv, Option.some.injEq] at hp
    subst hp
    refine ⟨h.setLimit _, rfl, rfl, ?_⟩
    simp only [plainLimit, if_pos hv, LongTerm.setLimit]
  · simp only [if_neg hv] at hp
    obtain ho | ⟨top, ht⟩ := Option.eq_none_or_eq_some s.blocks.getLast?
    · simp [ho] at hp
    · simp only [ht] at hp
      obtain ⟨u, hu, heq⟩ := Option.map_eq_some_iff.mp hp
      subst heq
      have hb : s.blocks = s.blocks.dropLast ++ [top] := (List.dropLast_append_getLast? top ht).symm
      obtain ⟨hc, hl, hwe, hf⟩ := h.updateLongTerm hS hn hb hv hu
      simp only [LongTerm.setLimit_blocks, LongTerm.setLimit_longTermWeights]
      refine ⟨hc.setLimit _, hl, hwe, ?_⟩
      simp only [plainLimit, if_neg hv, LongTerm.setLimit, hl, hf]

theorem LongTerm.topId_eq (s : LongTerm) : s.topId = topHash WeighedBlock.id nullHash s.blocks.reverse := by
  unfold LongTerm.topId
  obtain hn | ⟨top, ht⟩ := Option.eq_none_or_eq_some s.blocks.getLast?
  · rw [List.getLast?_eq_none_iff.mp hn]
    rfl
  · rw [ht, topHash_of_getLast? ht]
    rfl

def Admitted (version : List WeighedBlock → UInt8) (n : Nat) (S : WeighedBlock → Prop) (s : LongTerm)
    (op : LongTerm.Op) : Prop :=
  ∀ b, op = .add b → S b ∧ Capped version n s.blocks s.longTermWeights b

theorem Cached.step (hS : Distinct WeighedBlock.id nullHash S) (hn : 0 < n) {op : LongTerm.Op}
    (h : Cached version n S s) (ho : Admitted version n S s op)
    (hs : s.step version op = some t) : Cached version n S t := by
  cases op with
  | add b =>
    obtain ⟨hbS, hcp⟩ := ho b rfl
    dsimp only [LongTerm.step] at hs
    by_cases ht : b.prevId ≠ s.topId
    · simp [ht] at hs
    · rw [if_neg ht] at hs
      obtain ⟨⟨l, u⟩, hl, heq⟩ := Option.map_eq_some_iff.mp hs
      subst heq
      obtain ⟨hu, hb, huw, hx⟩ := h.next hS hn hl
      rw [not_ne_iff, LongTerm.topId_eq] at ht
      have hwe : plainWeights version n (s.blocks ++ [b]) = plainWeights version n s.blocks ++
          [plainNext version n s.blocks (plainWeights version n s.blocks) b.weight] := plainWeights_concat
      rw [← h.weights, ← hx] at hwe
      refine ⟨⟨?_, ?_⟩, ?_, hu.capacity, hu.tip, ?_⟩
      · simp only [reverse_append, reverse_singleton, singleton_append, hb]
        exact ⟨ht, h.chain.linked⟩
      · intro c hc
        rcases mem_append.mp hc with hc | hc
        · exact hu.chain.met c hc
        · exact mem_singleton.mp hc ▸ hbS
      · rw [hb, huw, hwe]
      · intro p c hp
        rw [hb] at hp
        rcases prefix_concat_iff.mp hp with heq | hp
        · obtain ⟨rfl, hc⟩ := append_inj' heq rfl
          cases hc
          rw [← h.weights]
          exact hcp
        · exact h.capped p c hp
  | pop =>
    dsimp only [LongTerm.step] at hs
    by_cases hem : s.blocks = []
    · simp [hem] at hs
    · rw [if_neg hem] at hs
      cases hs
      refine ⟨?_, ?_, h.capacity, h.tip, fun p c hp => h.capped p c (hp.trans ( dropLast_prefix _))⟩
      · rw [dropLast_eq_take]
        exact h.chain.take _
      · rw [h.weights, dropLast_eq_take, dropLast_eq_take, plainWeights_take, plainWeights_length]
  | update => exact (h.update hS hn hs).1
  | next w =>
    obtain ⟨⟨l, u⟩, hl, rfl⟩ := Option.map_eq_some_iff.mp hs
    exact (h.next hS hn hl).1

theorem start_cached (version : List WeighedBlock → UInt8) (n : Nat) (S : WeighedBlock → Prop) :
    Cached version n S (LongTerm.start n) where
  chain := ⟨trivial, fun _ hb => absurd hb not_mem_nil⟩
  weights := rfl
  capacity := rfl
  tip := Or.inl rfl
  capped := by
    intro p c hp
    have hlen := hp.length_le
    simp [LongTerm.start] at hlen

theorem cached_of_run (hS : Distinct WeighedBlock.id nullHash S) (hn : 0 < n) {ops : List LongTerm.Op}
    (hr : run (LongTerm.step version) (LongTerm.start n) ops = some s)
    (ho : EveryStep (LongTerm.step version) (Admitted version n S) (LongTerm.start n) ops) : Cached version n S s :=
  run_invariant (I := Cached version n S) (fun _ _ _ h hp hs => h.step hS hn hp hs)
    (start_cached version n S) ho hr

/-- The windows the two callers of `get_long_term_block_weight_median` ask for. -/
inductive LongTerm.Asked (version : List WeighedBlock → UInt8) (s : LongTerm) : Nat → Nat → Prop
  | next (hv : 10 ≤ version s.blocks) (hpos : 0 < s.height) :
      Asked version s (s.height - min s.weightsWindow s.height) (min s.weightsWindow s.height)
  | update (hv : 10 ≤ version s.blocks) (htwo : 1 < s.height) :
      Asked version s (s.height - s.updateBlocks - 1) s.updateBlocks

/-- The median the cache gives is that of the stored weights, these are those of the chain, and the
limit set by an update depends on the chain alone. -/
theorem long_term_cache_invisible (hS : Distinct WeighedBlock.id nullHash S) (hn : 0 < n)
    {ops : List LongTerm.Op} (hrun : run (LongTerm.step version) (LongTerm.start n) ops = some s)
    (hops : EveryStep (LongTerm.step version) (Admitted version n S) (LongTerm.start n) ops) :
    (∀ first count, s.Asked version first count → ∃ t, s.getLongTermBlockWeightMedian first count =
        some (median ((s.longTermWeights.drop first).take count), t)) ∧
    s.longTermWeights = plainWeights version n s.blocks ∧
    (∀ blocks b, s.blocks = blocks ++ [b] → ∀ t, run (LongTerm.step version) s [.pop, .add b] = some t →
      t.blocks = s.blocks ∧ t.longTermWeights = s.longTermWeights) ∧
    ∀ t, s.updateNextCumulativeWeightLimit version = some t →
      t.cumulWeightLimit = plainLimit version n s.blocks := by
  have h := cached_of_run hS hn hrun hops
  refine ⟨?_, h.weights, ?_, fun t hup => (h.update hS hn hup).2.2.2⟩
  · intro first count hk
    cases hk with
    | next hv hpos =>
      rw [LongTerm.weightsWindow, h.capacity]
      obtain ⟨tip, r, hs, -⟩ := h.query hS hn hpos (Nat.le_refl _)
      exact ⟨_, hs⟩
    | update hv htwo =>
      obtain ⟨ho, hf⟩ := h.updateBlocks_eq (by omega)
      rw [hf, ho]
      obtain ⟨tip, r, hs, -⟩ := h.query hS hn (k := s.height - 1) (by omega) (by omega)
      exact ⟨_, hs⟩
  · intro blocks b hb t hg
    obtain ⟨u, hp, ha⟩ := run_cons_eq_some.mp hg
    obtain ⟨t', ha, hi⟩ := run_cons_eq_some.mp ha
    cases hi
    have hu := h.step hS hn (fun c hc => by cases hc) hp
    dsimp only [LongTerm.step] at hp
    rw [if_neg (by simp [hb])] at hp
    cases hp
    have hbS : S b := h.chain.met b (by simp [hb])
    have hcp := h.capped blocks b (hb ▸ prefix_refl _)
    have hd : s.blocks.dropLast = blocks := by simp [hb]
    have hwe := hu.weights
    have ht : Cached version n S t := by
      apply hu.step hS hn _ ha
      rintro c hc
      cases hc
      refine ⟨hbS, ?_⟩
      rw [hwe]
      rw [hd]
      exact hcp
    have hbl : t.blocks = s.blocks := by
      dsimp only [LongTerm.step] at ha
      split_ifs at ha
      obtain ⟨⟨l, v⟩, hl, rfl⟩ := Option.map_eq_some_iff.mp ha
      rw [(hu.next hS hn hl).2.1, hb]
      simp
    exact ⟨hbl, by rw [ht.weights, h.weights, hbl]⟩

/-! ## The limit of the template -/

end

namespace Sample

def weighed (i : Nat) (weight : UInt64) : WeighedBlock :=
  ⟨blockId i, if i = 0 then nullHash else blockId (i - 1), weight⟩

def longTermFrom (height : Nat) (blocks : List WeighedBlock) : UInt8 :=
  if blocks.length < height then 1 else 10

def weighedBlocks : List WeighedBlock := [weighed 0 80, weighed 1 1000000]

theorem weighedBlocks_distinct : Distinct WeighedBlock.id nullHash (· ∈ weighedBlocks) := by
  have hinj : ∀ b ∈ weighedBlocks, ∀ c ∈ weighedBlocks, b.id = c.id → b = c := by decide
  exact ⟨fun b c hb hc => hinj b hb c hc, by decide⟩

def readdOps : List LongTerm.Op :=
  [.add (weighed 0 80), .update, .add (weighed 1 1000000), .update, .pop, .update, .add (weighed 1 1000000), .update]

end Sample

open Sample in
/-- From version 10 on at the second block: its weight is capped both times. -/
theorem long_term_cache_invisible_readd :
    ∃ s, run (LongTerm.step (longTermFrom 1)) (LongTerm.start 3) readdOps = some s ∧
      s.longTermWeights = [80, 420000] ∧
      s.longTermWeights = plainWeights (longTermFrom 1) 3 s.blocks ∧ s.cumulWeightLimit = 1000080 := by
  have hr : (run (LongTerm.step (longTermFrom 1)) (LongTerm.start 3) readdOps).map
      (fun s => decide (s.longTermWeights = [80, 420000] ∧ s.cumulWeightLimit = 1000080)) = some true := by
    decide +kernel
  obtain ⟨s, hs, hf⟩ := Option.map_eq_some_iff.mp hr
  obtain ⟨hwe, hl⟩ := of_decide_eq_true hf
  have ho : EveryStep (LongTerm.step (longTermFrom 1))
      (Admitted (longTermFrom 1) 3 (· ∈ weighedBlocks)) (LongTerm.start 3) readdOps := by
    apply everyStep_of_forall
    rintro op hp s b rfl
    refine ⟨?_, fun hb _ hn => absurd (length_pos_iff.mpr hn) ?_⟩
    · simp only [readdOps, mem_cons, not_mem_nil, LongTerm.Op.add.injEq, reduceCtorEq, or_false, false_or] at hp
      simp only [weighedBlocks, mem_cons, not_mem_nil, or_false]
      tauto
    · simp only [longTermFrom] at hb
      split_ifs at hb with hlen
      · omega
      · exact absurd hb (by decide)
  have h := long_term_cache_invisible weighedBlocks_distinct (by decide) hs ho
  exact ⟨s, hs, hwe, h.2.1, hl⟩

open Sample in
/-- The block before the fork is stored with its full weight and cached with its capped one, so the
next cap is wrong. -/
theorem heavy_block_before_fork_miscached : ∃ s, Distinct WeighedBlock.id nullHash (· ∈ weighedBlocks) ∧
      run (LongTerm.step (longTermFrom 2)) (LongTerm.start 3)
        [.add (weighed 0 80), .update, .add (weighed 1 1000000), .update] = some s ∧
      s.longTermWeights = [80, 1000000] ∧ s.Asked (longTermFrom 2) 0 2 ∧
      (s.getLongTermBlockWeightMedian 0 2).map (·.1) = some 210040 ∧
      median ((s.longTermWeights.drop 0).take 2) = 500040 := by
  have hr : (run (LongTerm.step (longTermFrom 2)) (LongTerm.start 3)
      [.add (weighed 0 80), .update, .add (weighed 1 1000000), .update]).map
      (fun s => decide (s.longTermWeights = [80, 1000000] ∧ s.blocks = weighedBlocks ∧ s.rolling.capacity = 3 ∧
        (s.getLongTermBlockWeightMedian 0 2).map (·.1) = some 210040)) = some true := by
    decide +kernel
  obtain ⟨s, hs, hf⟩ := Option.map_eq_some_iff.mp hr
  obtain ⟨hwe, hb, hc, hme⟩ := of_decide_eq_true hf
  have ha : s.Asked (longTermFrom 2) 0 2 := by
    have hn : s.Asked (longTermFrom 2) _ _ :=
      .next (by rw [hb]; decide) (by rw [LongTerm.height, hb]; decide)
    simpa [LongTerm.height, LongTerm.weightsWindow, hb, hc, weighedBlocks] using hn
  exact ⟨s, weighedBlocks_distinct, hs, hwe, ha, hme, by rw [hwe]; decide⟩

end Gyro
