import Gyro.ForkChoice
import Gyro.Triangle

/-!
# What a block template builds on

The first part of `create_block_template`. With a `from_block` the gyro goes through
`get_next_gyro_for_alternative_chain`, which does not look at that block.
-/

namespace Gyro

open IntegerRoot Exits Runs List

namespace GyroType

def sumOfGyros (g h : GyroType) : List Int :=
  List.zipWith (fun a b => g.m.toNat * a + h.m.toNat * b) g.v.values h.v.values

def addGyro (g h : GyroType) : GyroType :=
  let V := sumOfGyros g h
  let v : Components :=
    { toList := quantize V
      length_eq := by
        simp [V, quantize, sumOfGyros, Components.values, g.v.length_eq, h.v.length_eq] }
  { M := g.M + h.M
    m := BitVec.ofNat 128 (isqrt 128 (sumSquared V) / (calcVectorModule v).toNat)
    v := v }

theorem addGyro_unit (g : GyroType) : g.addGyro unit = g.addSpin SpinType.unit := by
  have hV : sumOfGyros g unit = sumComponents g SpinType.unit := rfl
  have hM : unit.M = SpinType.unit.getModule := by decide +kernel
  have hr := root_lt (sumComponents g SpinType.unit)
  unfold addGyro addSpin
  simp only [hV, hM, mk.injEq, true_and, and_true]
  apply BitVec.eq_of_toNat_eq
  rw [BitVec.toNat_udiv, BitVec.toNat_ofNat, BitVec.toNat_ofNat, Nat.mod_eq_of_lt hr]
  exact Nat.mod_eq_of_lt (Nat.lt_of_le_of_lt (Nat.div_le_self _ _) hr)

end GyroType

inductive TemplateRejection where
  | unknownFromBlock
  | altChain (why : AltRejection)
  deriving DecidableEq, Repr

abbrev TemplateExit := TemplateRejection ⊕ Fault

def ofAlt {α : Type} : Except AltExit α → Except TemplateExit α
  | .ok x => .ok x
  | .error (.inl why) => .error (.inl (.altChain why))
  | .error (.inr f) => .error (.inr f)

/-- The first registered fork is never looked at: below the others version 1 is in force. -/
def idealVersionAt (forks : List HardForkEntry) (height : UInt64) : UInt8 :=
  match (forks.drop 1).reverse.find? (·.height ≤ height) with
  | some f => f.version
  | none => 1

def idealVersion (forks : List HardForkEntry) : UInt8 := (forks.getLast?.map (·.version)).getD 1

/-- With the `--fixed-gyro` option, the gyro of `bei` and the default argument `spin`. -/
def getNextGyroForAlternativeChain (fixedGyro : GyroType) (db : Db) (altChain : List AltBlock)
    (beiGyro spin : GyroType) : Except AltExit GyroType :=
  if fixedGyro.m ≠ 0 then .ok (if db.height ≠ 0 then fixedGyro else GyroType.unit)
  else
    match altChain with
    -- the main chain's entry at the height of the first alternative block
    | front :: _ => do
      let e ← orThrow (db.entryAt front.height)
      return e.gyro.addGyro spin
    | [] => .ok (beiGyro.addGyro spin)

/-- The gyro `core::init` makes of the `--fixed-gyro` option, 0 when it is not given. -/
def fixedGyroOf (arg : UInt64) : GyroType where
  M := arg.toBitVec.setWidth 128
  m := arg.toBitVec.setWidth 128
  v := Components.unit

structure TemplateParent where
  height : UInt64
  medianWeight : UInt64
  alreadyGeneratedCoins : UInt64

structure TemplateStart extends TemplateParent where
  majorVersion : UInt8
  minorVersion : UInt8
  prevId : Hash
  gyro : GyroType

def parentInMain (db : Db) (fromBlock : Hash) : Except AltExit TemplateParent := do
  let h ← orThrow (db.getBlockHeight fromBlock)
  let prevBlock ← orThrow (db.getBlockFromHeight h)
  let height := prevBlock.getBlockHeight + 1
  let e ← orThrow (db.entryAt (height - 1))
  return { height, medianWeight := e.weight, alreadyGeneratedCoins := e.coins }

def parentInAlt (st : Blockchain) (altChain : List AltBlock) (fromBlock : Hash) :
    Except AltExit TemplateParent := do
  let prevData ← orThrow (st.altBlocks fromBlock)
  let back ← orThrow altChain.getLast?
  return { height := back.height + 1
           medianWeight := prevData.cumulativeWeight - prevData.cumulativeWeight / 20
           alreadyGeneratedCoins := back.alreadyGeneratedCoins }

def templateParent (st : Blockchain) (altChain : List AltBlock) (fromBlock : Hash) :
    Except AltExit TemplateParent :=
  if st.db.blockExists fromBlock then parentInMain st.db fromBlock
  else parentInAlt st altChain fromBlock

/-- The branch for a given `from_block`, whose gyro is the default-constructed one. -/
def templateFrom (cfg : Config) (fixedGyro : GyroType) (fuel : Nat) (st : Blockchain)
    (fromBlock : Hash) : Except TemplateExit TemplateStart :=
  if (st.altBlocks fromBlock).isNone && !st.db.blockExists fromBlock then
    .error (.inl .unknownFromBlock)
  else ofAlt do
    let (altChain, _) ← buildAltChain fuel st fromBlock
    let parent ← templateParent st altChain fromBlock
    let gyro ←
      getNextGyroForAlternativeChain fixedGyro st.db altChain GyroType.unit GyroType.unit
    return { parent with
      majorVersion := idealVersionAt cfg.hardForks parent.height
      minorVersion := idealVersion cfg.hardForks
      prevId := fromBlock
      gyro }

def templateOnTip (cfg : Config) (weightLimit : UInt64) (st : Blockchain) :
    Except TemplateExit TemplateStart := ofAlt do
  let e ← orThrow (st.db.entryAt (st.db.height - 1))
  return {
    height := st.db.height
    medianWeight := weightLimit / 2
    alreadyGeneratedCoins := e.coins
    majorVersion := currentVersion cfg st.db
    minorVersion := idealVersion cfg.hardForks
    prevId := st.db.topBlockHash
    gyro := currentGyro st.db }

def Blockchain.storedGyro (st : Blockchain) (id : Hash) : Option GyroType :=
  match st.db.getBlockHeight id with
  | some h => (st.db.entryAt h).map (·.gyro)
  | none => (st.altBlocks id).map (·.cumulativeGyro)

/-- The height at which the stored blocks below a stored block leave the main chain. -/
inductive LeavesAt (st : Blockchain) : Hash → UInt64 → Prop
  | first {id : Hash} {ab : AltBlock} :
      st.altBlocks id = some ab → st.altBlocks ab.block.prevId = none → LeavesAt st id ab.height
  | above {id : Hash} {ab : AltBlock} {h : UInt64} :
      st.altBlocks id = some ab → LeavesAt st ab.block.prevId h → LeavesAt st id h

/-- The block's gyro is the fixed one or, where none is set, one unit spin more than the default
gyro or than the main chain where the block's chain leaves it. -/
def StartsRight (fixedGyro : GyroType) (st : Blockchain) (id : Hash) : Prop :=
  ∃ g, st.storedGyro id = some g ∧
    if fixedGyro.m ≠ 0 then g = fixedGyro
    else if st.altBlocks id = none then g = GyroType.unit.addSpin SpinType.unit
    else ∃ h e, LeavesAt st id h ∧ st.db.entryAt h = some e ∧ g = e.gyro.addSpin SpinType.unit

section
variable {cfg : Config} {fixedGyro : GyroType} {fuel : Nat} {st : Blockchain} {id : Hash}
  {start : TemplateStart}

theorem ofAlt_eq_ok {α : Type} {x : Except AltExit α} {a : α} (h : ofAlt x = .ok a) : x = .ok a := by
  cases x with
  | ok b =>
    cases h
    rfl
  | error e =>
    cases e with
    | inl why => cases h
    | inr f => cases h

theorem templateFrom_eq_ok (h : templateFrom cfg fixedGyro fuel st id = .ok start) :
    ∃ altChain timestamps, buildAltChain fuel st id = .ok (altChain, timestamps) ∧
      getNextGyroForAlternativeChain fixedGyro st.db altChain GyroType.unit GyroType.unit = .ok start.gyro := by
  unfold templateFrom at h
  split at h
  · cases h
  · obtain ⟨⟨altChain, timestamps⟩, hb, h⟩ := bind_eq_ok.mp (ofAlt_eq_ok h)
    obtain ⟨parent, _, h⟩ := bind_eq_ok.mp h
    obtain ⟨gyro, hg, h⟩ := bind_eq_ok.mp h
    cases h
    exact ⟨altChain, timestamps, hb, hg⟩

variable {altChain : List AltBlock} {timestamps : List UInt64}

theorem buildAltChain_height (h : buildAltChain fuel st id = .ok (altChain, timestamps)) : st.db.height ≠ 0 := by
  have hp : st.db.entries ≠ [] := by
    intro hn
    cases altChain with
    | cons front more =>
      obtain ⟨_, e, he, _⟩ := buildAltChain_cons h
      simp [hn] at he
    | nil =>
      unfold buildAltChain at h
      rw [buildAltChain_nil h] at h
      simp [Db.getBlockHeight, hn] at h
  intro hzero
  have hl := Db.height_toNat st.db
  rw [hzero] at hl
  exact hp (length_eq_zero_iff.mp hl.symm)

theorem leavesAt_of_altAncestors {front : AltBlock} {acc more : List AltBlock}
    (h : altAncestors st fuel id acc = .ok (front :: more)) :
    (st.altBlocks id = none ∧ acc = front :: more) ∨ LeavesAt st id front.height := by
  induction fuel generalizing id acc with
  | zero => cases h
  | succ fuel ih =>
    unfold altAncestors at h
    split at h
    · rename_i hn
      cases h
      exact .inl ⟨hn, rfl⟩
    · rename_i ab ha
      obtain ⟨hn, hc⟩ | hl := ih h
      · cases hc
        exact .inr (.first ha hn)
      · exact .inr (.above ha hl)

theorem altAncestors_length {acc chain : List AltBlock} (h : altAncestors st fuel id acc = .ok chain) :
    acc.length ≤ chain.length := by
  induction fuel generalizing id acc with
  | zero => cases h
  | succ fuel ih =>
    unfold altAncestors at h
    split at h
    · cases h
      exact le_refl _
    · have hl := ih h
      rw [length_cons] at hl
      omega

theorem altAncestors_nil (h : altAncestors st fuel id [] = .ok []) : st.altBlocks id = none := by
  cases fuel with
  | zero => cases h
  | succ fuel =>
    unfold altAncestors at h
    split at h
    · assumption
    · have hl := altAncestors_length h
      simp at hl

theorem LeavesAt.stored {h : UInt64} (hl : LeavesAt st id h) : st.altBlocks id ≠ none := by
  cases hl with
  | first ha _ => simp [ha]
  | above ha _ => simp [ha]

theorem LeavesAt.unique {h h' : UInt64} (hl : LeavesAt st id h) (hl' : LeavesAt st id h') : h = h' := by
  induction hl with
  | first ha hn =>
    cases hl' with
    | first ha' _ => rw [Option.some.inj (ha.symm.trans ha')]
    | above ha' hl' =>
      rw [← Option.some.inj (ha.symm.trans ha')] at hl'
      exact absurd hn hl'.stored
  | above ha hl ih =>
    cases hl' with
    | first ha' hn =>
      rw [← Option.some.inj (ha.symm.trans ha')] at hn
      exact absurd hn hl.stored
    | above ha' hl' =>
      rw [← Option.some.inj (ha.symm.trans ha')] at hl'
      exact ih hl'

theorem buildAltChain_leaves (h : buildAltChain fuel st id = .ok (altChain, timestamps)) :
    (altChain = [] ∧ st.altBlocks id = none) ∨
      ∃ front more, altChain = front :: more ∧ st.altBlocks id ≠ none ∧ LeavesAt st id front.height := by
  cases altChain with
  | nil => exact .inl ⟨rfl, altAncestors_nil (buildAltChain_nil h)⟩
  | cons front more =>
    obtain ⟨_, hn⟩ | hl := leavesAt_of_altAncestors (buildAltChain_cons h).1
    · cases hn
    · exact .inr ⟨front, more, rfl, hl.stored, hl⟩

theorem Db.entryAt_tip {db : Db} (h : db.entries ≠ []) : db.entryAt (db.height - 1) = db.entries.getLast? := by
  rw [Db.entryAt, Db.height_pred_toNat (length_pos_iff.mpr h), List.getLast?_eq_getElem?]

theorem templateOnTip_gyro {weightLimit : UInt64}
    (ht : st.db.getBlockHeight st.db.topBlockHash = some (st.db.height - 1))
    (h : templateOnTip cfg weightLimit st = .ok start) : st.storedGyro st.db.topBlockHash = some start.gyro := by
  obtain ⟨e, he, h⟩ := bind_eq_ok.mp (ofAlt_eq_ok h)
  cases h
  have ha := orThrow_eq_ok he
  have hc : st.db.entries ≠ [] := by
    intro hn
    simp [Db.entryAt, hn] at ha
  have hl : st.db.entries.getLast? = some e := by
    rw [← Db.entryAt_tip hc]
    exact ha
  unfold Blockchain.storedGyro
  rw [ht]
  simp only [ha, Option.map_some, currentGyro, hl]

end

/-! ## Parents on the main chain

`M` adds at least one with every block. -/

theorem sumSquares_le {xs : List Int} (h : ∀ x ∈ xs, -128 ≤ x ∧ x ≤ 127) : sumSquares xs ≤ 16384 * xs.length := by
  induction xs with
  | nil => rfl
  | cons x xs ih =>
    have hx := h x mem_cons_self
    have hs : (x * x).toNat ≤ 16384 := by
      have : x * x ≤ 16384 := by nlinarith
      omega
    have hr := ih fun y hy => h y (mem_cons_of_mem _ hy)
    unfold sumSquares at hr ⊢
    rw [map_cons, sum_cons, length_cons]
    omega

theorem calcVectorModule_bounds (v : Components) :
    1 ≤ (calcVectorModule v).toNat ∧ (calcVectorModule v).toNat ≤ 2048 := by
  have hs : sumSquares v.values ≤ 16384 * 256 := by
    have hle : sumSquares v.values ≤ 16384 * v.values.length := by
      apply sumSquares_le
      intro x hx
      obtain ⟨a, _, rfl⟩ := mem_map.mp hx
      exact ⟨Int8.le_toInt a, Int8.toInt_le a⟩
    have hlen : v.values.length = 256 := (length_map _).trans v.length_eq
    rwa [hlen] at hle
  have ho : (1 + sumSquares v.values) % 2 ^ 256 = 1 + sumSquares v.values := by
    apply Nat.mod_eq_of_lt
    omega
  have hr := fun a => @isqrt_lt_iff 128 (1 + sumSquares v.values) a (by omega)
  have hl := hr 1
  have hh := hr 2049
  unfold calcVectorModule
  rw [ho, BitVec.toNat_ofNat]
  omega

theorem SpinType.getModule_toNat (s : SpinType) :
    s.getModule.toNat = (calcVectorModule s.v).toNat * s.m.toNat / 1024 + 1 := by
  have hv := (calcVectorModule_bounds s.v).2
  have hm : s.wideM.toNat = s.m.toNat := toNat_wide s.m
  have hl := s.m.toNat_lt
  have hp := Nat.mul_le_mul hv hl.le
  have hme : mediumModule.toNat = 1024 := rfl
  have ho : (1 : BitVec 128).toNat = 1 := rfl
  unfold getModule Gyro.getModule
  rw [BitVec.toNat_add, BitVec.toNat_udiv, BitVec.toNat_mul, hm, hme, ho,
    Nat.mod_eq_of_lt (by omega), Nat.mod_eq_of_lt (by omega)]

theorem SpinType.getModule_bounds (s : SpinType) : 1 ≤ s.getModule.toNat ∧ s.getModule.toNat ≤ 2 ^ 66 := by
  have hp := Nat.mul_le_mul (calcVectorModule_bounds s.v).2 s.m.toNat_lt.le
  rw [getModule_toNat]
  omega

variable {cfg : Config}

theorem chainGyro_M_bounds : ∀ {bs : List Block}, bs ≠ [] → bs.length ≤ 2 ^ 61 →
    bs.length ≤ (chainGyro cfg bs).M.toNat + 1 ∧ (chainGyro cfg bs).M.toNat ≤ bs.length * 2 ^ 66
  | [], hn, _ => absurd rfl hn
  | b :: rest, _, hlen => by
    rw [List.length_cons] at hlen ⊢
    have hd := (blockSpin cfg rest b).getModule_bounds
    have ha : (UInt64.ofNat rest.length).toNat = rest.length :=
      UInt64.toNat_ofNat_of_lt' (by change _ < 2 ^ 64; omega)
    unfold chainGyro
    by_cases ho : 1 < UInt64.ofNat rest.length
    · have hr : 1 < rest.length := by
        rw [UInt64.lt_iff_toNat_lt, ha] at ho
        exact ho
      have hn : rest ≠ [] := ne_nil_of_length_pos (by omega)
      have hi := chainGyro_M_bounds hn (by omega)
      have hs : ((chainGyro cfg rest).addSpin (blockSpin cfg rest b)).M.toNat =
          (chainGyro cfg rest).M.toNat + (blockSpin cfg rest b).getModule.toNat := by
        apply Nat.mod_eq_of_lt
        omega
      rw [if_pos ho]
      omega
    · have hr : rest.length ≤ 1 := by
        rw [UInt64.lt_iff_toNat_lt, ha] at ho
        exact Nat.not_lt.mp ho
      rw [if_neg ho]
      change _ ≤ (blockSpin cfg rest b).getModule.toNat + 1 ∧ (blockSpin cfg rest b).getModule.toNat ≤ _
      omega

theorem blockSpin_start {rest : List Block} (b : Block) (h : rest.length ≤ 2)
    (hs : 2 ≤ cfg.startAmountBlocks) : blockSpin cfg rest b = SpinType.unit := by
  apply if_neg
  rw [UInt64.lt_iff_toNat_lt, UInt64.toNat_ofNat_of_lt' (by change _ < 2 ^ 64; omega)]
  rw [UInt64.le_iff_toNat_le] at hs
  have ht : (2 : UInt64).toNat = 2 := rfl
  omega

theorem chainGyro_first {bs : List Block} (hn : bs ≠ []) (h : bs.length ≤ 2)
    (hs : 2 ≤ cfg.startAmountBlocks) : chainGyro cfg bs = GyroType.unit := by
  cases bs with
  | nil => exact absurd rfl hn
  | cons b rest =>
    rw [length_cons] at h
    have ho : ¬ 1 < UInt64.ofNat rest.length := by
      rw [UInt64.lt_iff_toNat_lt, UInt64.toNat_ofNat_of_lt' (by change _ < 2 ^ 64; omega)]
      have ht : (1 : UInt64).toNat = 1 := rfl
      omega
    unfold chainGyro
    rw [if_neg ho, blockSpin_start b (by omega) hs]
    decide +kernel

theorem chainGyro_eq_two_units {bs : List Block} (hn : bs ≠ []) (hlen : bs.length ≤ 2 ^ 61)
    (hs : 2 ≤ cfg.startAmountBlocks) : chainGyro cfg bs = GyroType.unit.addSpin SpinType.unit ↔ bs.length = 3 := by
  constructor
  · intro heq
    have hb := (@chainGyro_M_bounds cfg _ hn hlen).1
    have hM : (GyroType.unit.addSpin SpinType.unit).M.toNat = 2 := by decide +kernel
    rw [heq] at hb
    by_contra hl
    have hf := chainGyro_first hn (by omega) hs
    rw [heq] at hf
    have hu : GyroType.unit.M.toNat = 1 := rfl
    rw [hf] at hM
    omega
  · intro hl
    cases bs with
    | nil => exact absurd rfl hn
    | cons b rest =>
      rw [length_cons] at hl
      have hr : rest.length = 2 := by omega
      have hn' : rest ≠ [] := ne_nil_of_length_pos (by omega)
      unfold chainGyro
      rw [chainGyro_first hn' (by omega) hs, blockSpin_start b (by omega) hs, hr]
      rfl

/-- A template on a block of the main chain starts from its gyro at height 2 and nowhere else. -/
theorem startsRight_main_iff {S : Block → Prop} {st : Blockchain} {fixedGyro : GyroType} {id : Hash}
    {h : UInt64} (hb : TrueChain cfg S st.db) (hlen : st.db.entries.length ≤ 2 ^ 61)
    (hs : 2 ≤ cfg.startAmountBlocks) (hf : fixedGyro.m = 0) (ha : st.altBlocks id = none)
    (hd : st.db.getBlockHeight id = some h) : StartsRight fixedGyro st id ↔ h = 2 := by
  obtain ⟨i, hi, rfl⟩ := Option.map_eq_some_iff.mp hd
  have hl : i < st.db.entries.length := (List.findIdx?_eq_some_iff_findIdx_eq.mp hi).1
  have hn : (UInt64.ofNat i).toNat = i := Db.toNat_ofNat_of_lt hl
  have hg : st.db.entries[i]? = some st.db.entries[i] := List.getElem?_eq_getElem hl
  have ho : st.storedGyro id = some st.db.entries[i].gyro := by
    unfold Blockchain.storedGyro Db.entryAt
    rw [hd]
    simp only [hn, hg, Option.map_some]
  have hln : (st.db.blocks.take (i + 1)).reverse.length = i + 1 := by
    rw [length_reverse, length_take]
    unfold Db.blocks
    rw [length_map]
    omega
  have hne : (st.db.blocks.take (i + 1)).reverse ≠ [] := ne_nil_of_length_pos (by omega)
  have hu := chainGyro_eq_two_units hne (by omega) hs
  unfold StartsRight
  simp only [ho, hf, ha, ne_eq, not_true_eq_false, if_false, if_true, Option.some.injEq, exists_eq_left']
  rw [hb.gyro i _ hg, hu, hln, ← UInt64.toNat_inj, hn]
  exact Nat.succ_inj

end Gyro
