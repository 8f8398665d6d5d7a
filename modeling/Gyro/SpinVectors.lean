import Gyro.TemplateStart
import Gyro.Divisors

/-!
# The vectors of spins and gyros

The beacon a direction is hashed from, the magnitude that gives it a module, and the four
operators of `gyro.cpp` that add a vector to a gyro or take one away.
-/

namespace Gyro

open WordSum Runs List

def Db.hashes (db : Db) : List Hash := db.entries.map (·.block.hash)

def Db.window (db : Db) (h window : UInt64) : List Hash := (db.hashes.drop (h.toNat + 1)).take window.toNat

def mixed (x : Hash) (hashes : List Hash) : Hash := hashes.foldl (· ^^^ ·) x

section
variable {cfg : Config} {db : Db} {h : UInt64}

theorem Db.hashes_length : db.hashes.length = db.entries.length := length_map _

theorem Db.blockHash_eq (n : UInt64) : db.view.blockHash n = db.hashes[n.toNat]? := List.getElem?_map.symm

theorem beaconFrom_eq_mixed : ∀ {count : Nat} {n : UInt64} {x : Hash}, n.toNat + count ≤ db.entries.length →
      beaconFrom db.view count n x = some (mixed x ((db.hashes.drop n.toNat).take count))
  | 0, _, _, _ => rfl
  | count + 1, n, x, hle => by
    have hbound := db.bounded
    have hs : (n + 1).toNat = n.toNat + 1 := add_toNat (by change n.toNat + 1 < 2 ^ 64; omega)
    have hl : n.toNat < db.hashes.length := by
      rw [Db.hashes_length]
      omega
    rw [beaconFrom, Db.blockHash_eq, List.getElem?_eq_getElem hl, drop_eq_getElem_cons hl]
    dsimp only
    rw [beaconFrom_eq_mixed (by omega), hs]
    rfl

theorem mixed_concat (x y : Hash) (hashes : List Hash) : mixed x (hashes ++ [y]) = mixed x hashes ^^^ y :=
  foldl_concat ..

theorem beacon_eq_mixed (hl : h.toNat + max cfg.spinnerPvrbBlockWindow.toNat 1 < db.entries.length) :
    beacon db.view cfg.spinnerPvrbBlockWindow h =
      some (mixed 0 ((db.hashes.drop (h.toNat + 1)).take (max cfg.spinnerPvrbBlockWindow.toNat 2 - 1))) := by
  have hbound := db.bounded
  have ho : (h + 1).toNat = h.toNat + 1 := add_toNat (by change h.toNat + 1 < 2 ^ 64; omega)
  have ht : (h + 2).toNat = h.toNat + 2 := add_toNat (by change h.toNat + 2 < 2 ^ 64; omega)
  have hn : (h + cfg.spinnerPvrbBlockWindow).toNat = h.toNat + cfg.spinnerPvrbBlockWindow.toNat :=
    add_toNat (by omega)
  have ha : h.toNat + 1 < db.hashes.length := by
    rw [Db.hashes_length]
    omega
  have hc : max cfg.spinnerPvrbBlockWindow.toNat 2 - 1 =
      (h + cfg.spinnerPvrbBlockWindow).toNat - (h + 2).toNat + 1 := by omega
  have hzero : (0 : Hash) ^^^ db.hashes[h.toNat + 1] = db.hashes[h.toNat + 1] := BitVec.zero_xor
  rw [beacon, Db.blockHash_eq, ho, List.getElem?_eq_getElem ha, drop_eq_getElem_cons ha, hc, take_succ_cons]
  dsimp only
  rw [beaconFrom_eq_mixed (by omega), ht, mixed, mixed, foldl_cons, hzero]

/-- The beacon is the mix of the whole window only where the window has one
block or the hash of its last block is zero. It depends on no hash from
`beaconEnd` on, so not on that of the last block of a longer window. -/
theorem beacon_covers_window_iff (hlt : h.toNat + cfg.spinnerPvrbBlockWindow.toNat < db.entries.length) :
    (beacon db.view cfg.spinnerPvrbBlockWindow h = some (mixed 0 (db.window h cfg.spinnerPvrbBlockWindow)) ↔
      cfg.spinnerPvrbBlockWindow = 1 ∨ db.hashes[h.toNat + max cfg.spinnerPvrbBlockWindow.toNat 1]? = some 0) ∧
    ∀ db' : Db, db'.hashes.take (beaconEnd cfg h) = db.hashes.take (beaconEnd cfg h) →
      beacon db'.view cfg.spinnerPvrbBlockWindow h = beacon db.view cfg.spinnerPvrbBlockWindow h := by
  have hbound := db.bounded
  have ho : cfg.spinnerPvrbBlockWindow = 1 ↔ cfg.spinnerPvrbBlockWindow.toNat = 1 := UInt64.toNat_inj.symm
  constructor
  · by_cases hne : h.toNat + 1 < db.entries.length
    · rw [beacon_eq_mixed (by omega), ho, Db.window, Option.some.injEq]
      obtain ⟨x, hx⟩ : ∃ x, db.hashes[h.toNat + 1]? = some x :=
        ⟨_, List.getElem?_eq_getElem (by rw [Db.hashes_length]; exact hne)⟩
      generalize cfg.spinnerPvrbBlockWindow.toNat = w at hlt ⊢
      match w with
      | 0 => simp [take_one, hx, mixed]
      | 1 => simp
      | w + 2 =>
        obtain ⟨y, hy⟩ : ∃ y, db.hashes[h.toNat + (w + 2)]? = some y :=
          ⟨_, List.getElem?_eq_getElem (by rw [Db.hashes_length]; exact hlt)⟩
        have ht : (db.hashes.drop (h.toNat + 1)).take (w + 2) =
            (db.hashes.drop (h.toNat + 1)).take (w + 1) ++ [y] := by
          rw [take_add_one, List.getElem?_drop, show h.toNat + 1 + (w + 1) = h.toNat + (w + 2) by omega, hy]
          rfl
        rw [ht, mixed_concat, show max (w + 2) 2 - 1 = w + 1 by omega, show max (w + 2) 1 = w + 2 by omega, hy]
        have hs := @BitVec.xor_right_inj _ y 0#256 (mixed 0 ((db.hashes.drop (h.toNat + 1)).take (w + 1)))
        rw [BitVec.xor_zero] at hs
        rw [eq_comm, hs]
        simp
    · have hno : db.hashes[h.toNat + 1]? = none := by
        rw [List.getElem?_eq_none_iff, Db.hashes_length]
        omega
      have hwn : cfg.spinnerPvrbBlockWindow.toNat = 0 := by omega
      have ha : (h + 1).toNat = h.toNat + 1 := add_toNat (by change h.toNat + 1 < 2 ^ 64; omega)
      rw [beacon, Db.blockHash_eq, ha, ho, hwn, Nat.zero_max, hno]
      simp
  · intro db' hh
    refine beacon_congr (fun n hn => ?_) (by unfold beaconEnd; omega)
    rw [Db.blockHash_eq, Db.blockHash_eq, ← List.getElem?_take_of_lt hn, hh, List.getElem?_take_of_lt hn]

end

open Sample in
theorem beacon_covers_window_iff_default :
    ∃ s, run (Blockchain.accept (env Config.default) 2) node (startArrivals Config.default) = some s ∧
      (beacon s.db.view 5 0 = some (mixed 0 (s.db.window 0 5)) ↔ s.db.hashes[5]? = some 0) := by
  obtain ⟨s, hs, _⟩ := defaultBlock_accepted
  have hlen : s.db.entries.length = 101 := by
    rw [run_length hs]
    simp [startArrivals, Config.default, node, Db.empty]
  have hc := (@beacon_covers_window_iff Config.default s.db 0 (by rw [hlen]; decide)).1
  exact ⟨s, hs, hc.trans (or_iff_right (by decide))⟩

open Sample in
/-- The start blocks of the default network: the fifth block after the lock is left out. -/
theorem beacon_stops_early : ¬ ∀ (env : Env) (fuel : Nat) (st s : Blockchain) (as : List Arrival) (h : UInt64),
      st.db = Db.empty → run (Blockchain.accept env fuel) st as = some s →
      h.toNat + env.cfg.spinnerPvrbBlockWindow.toNat < s.db.entries.length →
      beacon s.db.view env.cfg.spinnerPvrbBlockWindow h =
        some (mixed 0 (s.db.window h env.cfg.spinnerPvrbBlockWindow)) := by
  intro ha
  obtain ⟨s, hs, _⟩ := defaultBlock_accepted
  have hh : s.db.hashes = (List.range 101).map blockId := by
    have hb := congrArg (List.map (·.hash)) (run_accept_blocks hs)
    rw [map_map] at hb
    exact hb.trans (by decide +kernel)
  have hlen : s.db.entries.length = 101 := by rw [← Db.hashes_length, hh]; rfl
  have hc := ha (env Config.default) 2 node s _ 0 rfl hs (by rw [hlen]; decide)
  rw [show (env Config.default).cfg = Config.default from rfl, beacon_eq_mixed (by rw [hlen]; decide), Db.window,
    hh] at hc
  exact absurd hc (by decide +kernel)

/-! ## The module of a spin -/

/-- `m` is a spin that `get_spinner_data` computes past the start blocks. -/
def ComputedSpin (m : UInt64) : Prop :=
  ∃ env fuel now db info res timeTo d t, ¬ db.height - 1 < env.cfg.startAmountBlocks ∧
    getSpinnerData env fuel now db info res timeTo = .ok (d, t) ∧ d.spin = m

section
variable {m : UInt64}

theorem ComputedSpin.lt (h : ComputedSpin m) : m.toNat < 2 ^ 54 := by
  obtain ⟨env, fuel, now, db, info, res, timeTo, d, t, hp, hg, rfl⟩ := h
  obtain ⟨r, l, proofHeight, _, _, _, _, hcm⟩ := getSpinnerData_eq_ok hp hg
  obtain ⟨driving, hc⟩ := computeData_eq_ok hcm
  have := computeSpin_lt hc.spin
  omega

theorem spinMagnitude_toNat (h : m.toNat < 2 ^ 54) (v : Components) :
    (spinMagnitude m v).toNat = m.toNat * 1024 / (calcVectorModule v).toNat := by
  have hi : (wide (m * 1024)).toNat = m.toNat * 1024 := by
    rw [toNat_wide, UInt64.toNat_mul]
    exact Nat.mod_eq_of_lt (by change _ * 1024 < _; omega)
  change ((wide (m * 1024) / calcVectorModule v).setWidth 64).toNat = _
  rw [BitVec.toNat_setWidth, BitVec.toNat_udiv, hi]
  exact Nat.mod_eq_of_lt (Nat.lt_of_le_of_lt (Nat.div_le_self _ _) (by omega))

/-- The direction that `get_spin` draws has the module it was asked for, give or take one. -/
theorem getSpin_keeps_module {view : ChainView} {cfg : Config} {txid : Hash} {s : SpinType}
    (hm : m.toNat < 2 ^ 54 ∨ ComputedSpin m) (h : view.getSpin cfg txid m = .ok (some s)) :
    m.toNat - 1 ≤ s.getModule.toNat ∧ s.getModule.toNat ≤ m.toNat + 1 := by
  have hl := hm.elim id ComputedSpin.lt
  obtain ⟨v, rfl⟩ : ∃ v, s = { m := spinMagnitude m v, v := v } := by
    unfold ChainView.getSpin at h
    split at h
    · cases h
    · split at h
      · cases h
      · split at h
        · cases h
        · cases h
          exact ⟨_, rfl⟩
  obtain ⟨hp, hle⟩ := calcVectorModule_bounds v
  rw [SpinType.getModule_toNat, spinMagnitude_toNat hl]
  dsimp only
  -- the first quotient loses less than the module of the direction, the second less than one
  have hdiv := Nat.div_add_mod (m.toNat * 1024) (calcVectorModule v).toNat
  have ho := Nat.mod_lt (m.toNat * 1024) hp
  omega

end

namespace Sample

def flatView : ChainView where
  height := 10
  txBlockHeight _ := some 1
  blockHash _ := some 7

end Sample

open Sample in
theorem getSpin_keeps_module_thousand : ∃ s, flatView.getSpin Config.default 1 1000 = .ok (some s) ∧
      999 ≤ s.getModule.toNat ∧ s.getModule.toNat ≤ 1001 :=
  ⟨_, rfl, @getSpin_keeps_module 1000 flatView Config.default 1 _ (.inl (by decide)) rfl⟩

open Sample in
/-- The product of `2 ^ 54` wraps to zero. -/
theorem getSpin_loses_module : ¬ ∀ (view : ChainView) (cfg : Config) (txid : Hash) (m : UInt64) (s : SpinType),
      view.getSpin cfg txid m = .ok (some s) →
        m.toNat - 1 ≤ s.getModule.toNat ∧ s.getModule.toNat ≤ m.toNat + 1 := by
  intro h
  have ho : ∀ v, SpinType.getModule { m := spinMagnitude 18014398509481984 v, v := v } = 1 := by
    intro v
    have hzero : spinMagnitude 18014398509481984 v = 0 := by
      change narrow (0#128 / calcVectorModule v) = 0
      rw [BitVec.zero_udiv]
      rfl
    apply BitVec.eq_of_toNat_eq
    rw [SpinType.getModule_toNat, hzero]
    simp
  have hl := (h flatView Config.default 1 18014398509481984 _ rfl).1
  rw [ho] at hl
  have : (18014398509481984 : UInt64).toNat = 18014398509481984 := rfl
  have : (1 : BitVec 128).toNat = 1 := rfl
  omega

/-! ## Quantization

The exact components are divided by one truncated factor and stored in signed bytes. -/

namespace GyroType

def differenceOfGyros (g h : GyroType) : List Int :=
  List.zipWith (fun a b => g.m.toNat * a - h.m.toNat * b) g.v.values h.v.values

def differenceOfSpin (g : GyroType) (s : SpinType) : List Int :=
  List.zipWith (fun a b => g.m.toNat * a - s.m.toNat * b) g.v.values s.v.values

def subGyro (g h : GyroType) : GyroType :=
  let V := differenceOfGyros g h
  let v : Components :=
    { toList := quantize V
      length_eq := by
        simp [V, quantize, differenceOfGyros, Components.values, g.v.length_eq, h.v.length_eq] }
  { M := if g.M > h.M then g.M - h.M else 0
    m := BitVec.ofNat 128 (IntegerRoot.isqrt 128 (sumSquared V) / (calcVectorModule v).toNat)
    v := v }

def subSpin (g : GyroType) (s : SpinType) : GyroType :=
  let V := differenceOfSpin g s
  let v : Components :=
    { toList := quantize V
      length_eq := by
        simp [V, quantize, differenceOfSpin, Components.values, g.v.length_eq, s.v.length_eq] }
  { M := if g.M > s.getModule then g.M - s.getModule else 1
    m := BitVec.ofNat 128 (IntegerRoot.isqrt 128 (sumSquared V)) / calcVectorModule v
    v := v }

end GyroType

/-- One call of the four operators. -/
inductive GyroUpdate where
  | addGyro (h : GyroType)
  | subGyro (h : GyroType)
  | addSpin (s : SpinType)
  | subSpin (s : SpinType)

namespace GyroUpdate

open GyroType

def components (g : GyroType) : GyroUpdate → List Int
  | .addGyro h => sumOfGyros g h
  | .subGyro h => differenceOfGyros g h
  | .addSpin s => sumComponents g s
  | .subSpin s => differenceOfSpin g s

def apply (g : GyroType) : GyroUpdate → GyroType
  | .addGyro h => g.addGyro h
  | .subGyro h => g.subGyro h
  | .addSpin s => g.addSpin s
  | .subSpin s => g.subSpin s

def magnitude : GyroUpdate → Nat
  | .addGyro h | .subGyro h => h.m.toNat
  | .addSpin s | .subSpin s => s.m.toNat

/-- Every quotient fits a signed byte, so the result is the sum divided by one factor. -/
def Unclamped (g : GyroType) (u : GyroUpdate) : Prop :=
  (∀ a ∈ u.components g, -128 ≤ a.tdiv (scale (u.components g)) ∧ a.tdiv (scale (u.components g)) ≤ 127) ∧
    (u.apply g).v.values = (u.components g).map (·.tdiv (scale (u.components g)))

theorem apply_v (g : GyroType) (u : GyroUpdate) : (u.apply g).v.toList = quantize (u.components g) := by
  cases u <;> rfl

end GyroUpdate

namespace GyroType

variable {V : List Int} {K c x init : Int}

theorem foldl_max_lt_iff : V.foldl max init < c ↔ init < c ∧ ∀ x ∈ V, x < c := by
  induction V generalizing init with
  | nil => simp
  | cons x xs ih => simp [ih, and_assoc]

theorem lt_foldl_min_iff : c < V.foldl min init ↔ c < init ∧ ∀ x ∈ V, c < x := by
  induction V generalizing init with
  | nil => simp
  | cons x xs ih => simp [ih, and_assoc]

theorem tdiv_le_iff (hK : 0 < K) (hc : 0 ≤ c) : x.tdiv K ≤ c ↔ x < (c + 1) * K := by
  by_cases hx : 0 ≤ x
  · rw [Int.tdiv_eq_ediv_of_nonneg hx, ← Int.lt_add_one_iff, Int.ediv_lt_iff_lt_mul hK]
  · have hn : x.tdiv K ≤ 0 := by
      have := Int.tdiv_nonneg (a := -x) (by omega) (Int.le_of_lt hK)
      rw [Int.neg_tdiv] at this
      omega
    have hp : 0 < (c + 1) * K := Int.mul_pos (by omega) hK
    exact iff_of_true (by omega) (by omega)

theorem scale_eq (V : List Int) : scale V = max (V.foldl max 127 / 127) (-V.foldl min (-128) / 128) ∧ 0 < scale V := by
  have ha : 127 ≤ V.foldl max 127 := Int.not_lt.mp fun h => Int.lt_irrefl _ (foldl_max_lt_iff.mp h).1
  have hi : V.foldl min (-128) ≤ -128 := Int.not_lt.mp fun h => Int.lt_irrefl _ (lt_foldl_min_iff.mp h).1
  unfold scale
  dsimp only
  rw [Int.tdiv_neg, ← Int.neg_tdiv, Int.tdiv_eq_ediv_of_nonneg (by omega), Int.tdiv_eq_ediv_of_nonneg (by omega)]
  split <;> omega

theorem quotients_fit_iff (V : List Int) : (∀ a ∈ V, -128 ≤ a.tdiv (scale V) ∧ a.tdiv (scale V) ≤ 127) ↔
      V.foldl max 127 < 128 * scale V ∧ -V.foldl min (-128) < 129 * scale V := by
  obtain ⟨_, hp⟩ := scale_eq V
  have hl : ∀ a : Int, -128 ≤ a.tdiv (scale V) ↔ -129 * scale V < a := by
    intro a
    have := @tdiv_le_iff (scale V) 128 (-a) hp (by decide)
    rw [Int.neg_tdiv] at this
    omega
  have hi : -V.foldl min (-128) < 129 * scale V ↔ -129 * scale V < V.foldl min (-128) := by omega
  rw [hi, foldl_max_lt_iff, lt_foldl_min_iff]
  simp only [hl, tdiv_le_iff hp (by decide : (0 : Int) ≤ 127)]
  constructor
  · intro h
    exact ⟨⟨by omega, fun a ha => (h a ha).2⟩, by omega, fun a ha => (h a ha).1⟩
  · rintro ⟨⟨_, hu⟩, _, ho⟩ a ha
    exact ⟨ho a ha, hu a ha⟩

end GyroType

open GyroType in
/-- No component is clamped exactly where the largest component, of at least
`127`, and the smallest one, of at most `-128`, leave small enough remainders,
or one of them is far smaller than the other. -/
theorem quantization_fits_iff (g : GyroType) (u : GyroUpdate) :
    let a := (u.components g).foldl max 127
    let b := -(u.components g).foldl min (-128)
    u.Unclamped g ↔
      (a % 127 < a / 127 ∨ a < 128 * (b / 128)) ∧ (b % 128 < b / 128 ∨ b < 129 * (a / 127)) := by
  intro a b
  obtain ⟨hs, hp⟩ := scale_eq (u.components g)
  have hf := quotients_fit_iff (u.components g)
  have hv : (∀ x ∈ u.components g, -128 ≤ x.tdiv (scale (u.components g)) ∧
      x.tdiv (scale (u.components g)) ≤ 127) →
      (u.apply g).v.values = (u.components g).map (·.tdiv (scale (u.components g))) := by
    intro h
    rw [Components.values, u.apply_v, quantize, map_map]
    exact map_congr_left fun x hx => Int8.toInt_ofIntClamp (h x hx).1 (h x hx).2
  rw [GyroUpdate.Unclamped, and_iff_left_of_imp hv, hf]
  omega

def Sample.axisSpin : SpinType where
  m := 2
  v := { toList := 126 :: List.replicate 255 0, length_eq := by rw [List.length_cons, List.length_replicate]; rfl }

/-- Added to the unit gyro: the first component is 253, and
the truncated factor is 1. -/
theorem quantization_clamps :
    ¬ ∀ (g : GyroType) (u : GyroUpdate), g.m.toNat < 2 ^ 119 → u.magnitude < 2 ^ 119 → u.Unclamped g := by
  intro h
  have hf := (h .unit (.addSpin Sample.axisSpin) (by decide) (by decide)).1
  exact absurd (hf 253 (by decide +kernel)) (by decide +kernel)

end Gyro
