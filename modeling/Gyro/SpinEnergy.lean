import Gyro.SpinnerData

/-!
# The energy of a spin

What `get_spinner_data` computes for the spin, against the same formula over
the natural numbers. The energy of the lock is a product of two 64-bit words
and wraps before it is widened.
-/

namespace Gyro

def exactSpin (cfg : Config) (spin locked elapsed : Nat) : Nat :=
  let E := 10 ^ 12 * cfg.spinnerMomentOfInertia.toNat * (spin * spin) / 2
  let dE := locked * cfg.spinnerEnergyCostMultiplier.toNat
  let damp := 10 ^ 12 * (spin * spin) * elapsed / cfg.spinnerDampingRatioDivider.toNat
  Nat.sqrt (2 * (E + dE - damp) / cfg.spinnerMomentOfInertia.toNat) / 10 ^ 6

def SpinReads.elapsed (cfg : Config) (r : SpinReads) : Nat :=
  r.prevTimestamp.toNat + cfg.durationTarget.toNat - r.spinTimestamp.toNat

def LockFits (cfg : Config) (locked : UInt64) : Prop :=
  locked.toNat * cfg.spinnerEnergyCostMultiplier.toNat < 2 ^ 64

/-- The elapsed time, the energy of the previous spin and its damping fit theirs. -/
structure EnergyFits (cfg : Config) (r : SpinReads) (locked : UInt64) : Prop where
  time : r.elapsed cfg < 2 ^ 64
  damped : 10 ^ 12 * (r.prevSpin.spin.toNat * r.prevSpin.spin.toNat) * r.elapsed cfg < 2 ^ 128
  energy : 10 ^ 12 * cfg.spinnerMomentOfInertia.toNat * (r.prevSpin.spin.toNat * r.prevSpin.spin.toNat) +
    2 * (locked.toNat * cfg.spinnerEnergyCostMultiplier.toNat) < 2 ^ 128

def SpinExact (cfg : Config) (r : SpinReads) (locked : UInt64) : Prop :=
  ∃ spin, computeSpin cfg r locked = .ok spin ∧
    spin.toNat = exactSpin cfg r.prevSpin.spin.toNat locked.toNat (r.elapsed cfg)

section
open Exits
variable {r : SpinReads} {locked locked' : UInt64}

theorem toNat_square (x : UInt64) : (wide x * wide x).toNat = x.toNat * x.toNat := by
  have hx := x.toNat_lt
  rw [BitVec.toNat_mul_of_lt, toNat_wide]
  rw [toNat_wide]
  nlinarith

theorem excessSquare_default {sumE dampA : BitVec 128} (h : 2 * sumE.toNat < 2 ^ 128) :
    ∃ x2, excessSquare .default sumE dampA = .ok x2 ∧ x2.toNat = 2 * (sumE.toNat - dampA.toNat) / 5 := by
  unfold excessSquare
  split
  · next hl =>
    refine ⟨(sumE - dampA) * 2 / wide 5, if_neg (by decide), ?_⟩
    have hs := BitVec.toNat_sub_of_le (BitVec.le_def.mpr hl.le)
    have ht : (2 : BitVec 128).toNat = 2 := rfl
    rw [BitVec.toNat_udiv, BitVec.toNat_mul_of_lt (by rw [ht]; omega), hs, Nat.mul_comm]
    rfl
  · next hg =>
    refine ⟨0, rfl, ?_⟩
    rw [Nat.sub_eq_zero_of_le (Nat.le_of_not_lt hg)]
    rfl

theorem computeSpin_default {E damp : Nat}
    (hE : (picoX * wide 5 * (wide r.prevSpin.spin * wide r.prevSpin.spin) / 2).toNat = E)
    (hd : (picoX * (wide r.prevSpin.spin * wide r.prevSpin.spin) *
      wide (r.prevTimestamp - r.spinTimestamp + 120) / wide 2000).toNat = damp)
    (hsm : 2 * (E + locked.toNat * 100000 % 2 ^ 64) < 2 ^ 128) : ∃ spin, computeSpin .default r locked = .ok spin ∧
      spin.toNat = Nat.sqrt (2 * (E + locked.toNat * 100000 % 2 ^ 64 - damp) / 5) / 10 ^ 6 := by
  have hdE : (wide (locked * 100000)).toNat = locked.toNat * 100000 % 2 ^ 64 := by
    rw [toNat_wide, UInt64.toNat_mul]
    rfl
  have hs : (picoX * wide 5 * (wide r.prevSpin.spin * wide r.prevSpin.spin) / 2 +
      wide (locked * 100000)).toNat = E + locked.toNat * 100000 % 2 ^ 64 := by
    rw [BitVec.toNat_add, hE, hdE]
    exact Nat.mod_eq_of_lt (by omega)
  obtain ⟨x2, hx2, hv⟩ := excessSquare_default (by rw [hs]; exact hsm)
  have hr : x2.toNat < 4 ^ 64 := Nat.lt_of_lt_of_eq x2.isLt (by norm_num)
  refine ⟨narrow (BitVec.ofNat 128 (IntegerRoot.isqrt 64 x2.toNat) / 1000000), ?_, ?_⟩
  · apply bind_eq_ok.mpr
    refine ⟨_, if_neg (by decide), bind_eq_ok.mpr ⟨x2, hx2, rfl⟩⟩
  · rw [toNat_narrow_root (IntegerRoot.isqrt_lt_two_pow hr), IntegerRoot.isqrt_eq_sqrt hr, hv, hs]
    exact congrArg (fun damp => Nat.sqrt (2 * (E + locked.toNat * 100000 % 2 ^ 64 - damp) / 5) / 10 ^ 6) hd

theorem spinExact_of_fits (ht : r.spinTimestamp.toNat ≤ r.prevTimestamp.toNat + 120)
    (h : EnergyFits .default r locked) (hlo : LockFits .default locked) : SpinExact .default r locked := by
  have hp : picoX.toNat = 10 ^ 12 := rfl
  have hi : picoX * wide 5 = 5000000000000 := by decide
  have hi' : (5000000000000 : BitVec 128).toNat = 10 ^ 12 * 5 := rfl
  have hn : 10 ^ 12 * 5 * (r.prevSpin.spin.toNat * r.prevSpin.spin.toNat) +
    2 * (locked.toNat * 100000) < 2 ^ 128 := h.energy
  have hl : (r.prevTimestamp - r.spinTimestamp + 120).toNat = r.elapsed .default := by
    have hf : r.prevTimestamp.toNat + 120 - r.spinTimestamp.toNat < 2 ^ 64 := h.time
    show _ = r.prevTimestamp.toNat + 120 - r.spinTimestamp.toNat
    rw [UInt64.toNat_add, UInt64.toNat_sub, show (120 : UInt64).toNat = 120 from rfl]
    have hs := r.spinTimestamp.toNat_lt
    omega
  have hE : (picoX * wide 5 * (wide r.prevSpin.spin * wide r.prevSpin.spin) / 2).toNat =
      10 ^ 12 * 5 * (r.prevSpin.spin.toNat * r.prevSpin.spin.toNat) / 2 := by
    rw [BitVec.toNat_udiv, hi, BitVec.toNat_mul_of_lt (by rw [hi', toNat_square]; omega), toNat_square]
    rfl
  have hd : (picoX * (wide r.prevSpin.spin * wide r.prevSpin.spin) *
      wide (r.prevTimestamp - r.spinTimestamp + 120) / wide 2000).toNat =
      10 ^ 12 * (r.prevSpin.spin.toNat * r.prevSpin.spin.toNat) * r.elapsed .default / 2000 := by
    have hq : (picoX * (wide r.prevSpin.spin * wide r.prevSpin.spin)).toNat =
        10 ^ 12 * (r.prevSpin.spin.toNat * r.prevSpin.spin.toNat) := by
      rw [BitVec.toNat_mul_of_lt (by rw [hp, toNat_square]; omega), hp, toNat_square]
    rw [BitVec.toNat_udiv, BitVec.toNat_mul_of_lt (by rw [hq, toNat_wide, hl]; exact h.damped), hq,
      toNat_wide, hl]
    rfl
  have ho : locked.toNat * 100000 % 2 ^ 64 = locked.toNat * 100000 := Nat.mod_eq_of_lt hlo
  obtain ⟨spin, hs, hv⟩ := computeSpin_default hE hd (by rw [ho]; omega)
  rw [ho] at hv
  exact ⟨spin, hs, hv⟩

theorem computeSpin_first (hzero : r.prevSpin.spin = 0) : ∃ spin, computeSpin .default r locked = .ok spin ∧
      spin.toNat = Nat.sqrt (2 * (locked.toNat * 100000 % 2 ^ 64) / 5) / 10 ^ 6 := by
  have hE : (picoX * wide 5 * (wide r.prevSpin.spin * wide r.prevSpin.spin) / 2).toNat = 0 := by
    rw [hzero]
    rfl
  have hd : (picoX * (wide r.prevSpin.spin * wide r.prevSpin.spin) *
      wide (r.prevTimestamp - r.spinTimestamp + 120) / wide 2000).toNat = 0 := by
    rw [hzero, show picoX * (wide 0 * wide 0) = 0#128 from rfl, BitVec.zero_mul]
    rfl
  obtain ⟨spin, hs, hv⟩ := computeSpin_default hE hd (by omega)
  rw [Nat.zero_add, Nat.sub_zero] at hv
  exact ⟨spin, hs, hv⟩

theorem exactSpin_first (elapsed : Nat) :
    exactSpin .default 0 locked.toNat elapsed = Nat.sqrt (2 * (locked.toNat * 100000) / 5) / 10 ^ 6 := by
  show Nat.sqrt (2 * (10 ^ 12 * 5 * (0 * 0) / 2 + locked.toNat * 100000 - 10 ^ 12 * (0 * 0) * elapsed / 2000) / 5) /
    10 ^ 6 = _
  simp

theorem sqrt_wrapped_ne {d w : Nat} (hw : w < 2 ^ 64) (hd : w + 2 ^ 64 ≤ d) :
    Nat.sqrt (2 * w / 5) / 10 ^ 6 ≠ Nat.sqrt (2 * d / 5) / 10 ^ 6 := by
  intro heq
  set q := Nat.sqrt (2 * w / 5) / 10 ^ 6 with hq
  have hl : q * 10 ^ 6 ≤ Nat.sqrt (2 * w / 5) := Nat.div_mul_le_self _ _
  have hh : Nat.sqrt (2 * d / 5) < (q + 1) * 10 ^ 6 := by
    omega
  rw [Nat.le_sqrt] at hl
  rw [Nat.sqrt_lt] at hh
  -- the lower energy bounds the spin, and so the energy of the next one
  have hs : q ≤ 2716 := by
    by_contra hb
    have hq : 2717 ≤ q := by omega
    have hsq := Nat.mul_le_mul hq hq
    rw [Nat.mul_mul_mul_comm] at hl
    omega
  have hr : q * 10 ^ 6 * (q * 10 ^ 6) + 2 * 2717 * 10 ^ 12 ≥ (q + 1) * 10 ^ 6 * ((q + 1) * 10 ^ 6) := by
    nlinarith
  omega

theorem spinExact_first_iff (hzero : r.prevSpin.spin = 0) : SpinExact .default r locked ↔ LockFits .default locked := by
  obtain ⟨spin, hs, hv⟩ := @computeSpin_first r locked hzero
  have hx : exactSpin .default r.prevSpin.spin.toNat locked.toNat (r.elapsed .default) =
      Nat.sqrt (2 * (locked.toNat * 100000) / 5) / 10 ^ 6 := by
    rw [hzero]
    exact exactSpin_first _
  have hi : SpinExact .default r locked ↔ spin.toNat = Nat.sqrt (2 * (locked.toNat * 100000) / 5) / 10 ^ 6 := by
    unfold SpinExact
    rw [hx]
    constructor
    · rintro ⟨other, ho, heq⟩
      rwa [Except.ok.inj (hs.symm.trans ho)]
    · intro heq
      exact ⟨spin, hs, heq⟩
  rw [hi, hv]
  by_cases hf : locked.toNat * 100000 < 2 ^ 64
  · rw [Nat.mod_eq_of_lt hf]
    exact ⟨fun _ => hf, fun _ => rfl⟩
  · constructor
    · intro heq
      exact absurd heq (sqrt_wrapped_ne (Nat.mod_lt _ (by norm_num)) (by omega))
    · intro hl
      exact absurd hl hf

theorem exactSpin_mono {cfg : Config} {spin locked locked' elapsed : Nat} (h : locked ≤ locked') :
    exactSpin cfg spin locked elapsed ≤ exactSpin cfg spin locked' elapsed := by
  apply Nat.div_le_div_right
  apply Nat.sqrt_le_sqrt
  apply Nat.div_le_div_right
  apply Nat.mul_le_mul_left
  apply Nat.sub_le_sub_right
  apply Nat.add_le_add_left
  exact Nat.mul_le_mul_right _ h

/-- The spin is exact where the energy of the lock fits a word, and a first spin only there; a
larger lock then never spins slower. -/
theorem spin_energy_exact (r : SpinReads) (locked : UInt64) :
    (r.spinTimestamp.toNat ≤ r.prevTimestamp.toNat + 120 → EnergyFits .default r locked →
      LockFits .default locked → SpinExact .default r locked ∧
        ∀ locked' ≤ locked, ∀ spin spin', computeSpin .default r locked' = .ok spin' →
          computeSpin .default r locked = .ok spin → spin' ≤ spin) ∧
    (r.prevSpin.spin = 0 → (SpinExact .default r locked ↔ LockFits .default locked)) := by
  refine ⟨?_, spinExact_first_iff⟩
  intro ht h hl
  have hx := spinExact_of_fits ht h hl
  refine ⟨hx, ?_⟩
  intro locked' hle spin spin' hs' hs
  rw [UInt64.le_iff_toNat_le] at hle ⊢
  have hmul : locked'.toNat * 100000 ≤ locked.toNat * 100000 := Nat.mul_le_mul_right _ hle
  have hl' : LockFits .default locked' := Nat.lt_of_le_of_lt hmul hl
  have he' := Nat.lt_of_le_of_lt (Nat.add_le_add_left (Nat.mul_le_mul_left 2 hmul) _) h.energy
  obtain ⟨_, ho', hv'⟩ := spinExact_of_fits ht ⟨h.time, h.damped, he'⟩ hl'
  obtain ⟨_, ho, hv⟩ := hx
  rw [Except.ok.inj (hs'.symm.trans ho'), Except.ok.inj (hs.symm.trans ho), hv', hv]
  exact exactSpin_mono hle

end

namespace Sample

def energyReads (spin : UInt64) : SpinReads where
  height := 200
  prevuosHeight := 199
  prevData := SpinnerData.zero
  prevTimestamp := 100000
  prevSpin := { SpinnerData.zero with spin := spin }
  spinTimestamp := 99880
  mediumInterval := 120
  timeTo := 100000

end Sample

open Sample in
theorem spin_energy_exact_of_hundred_coins :
    SpinExact .default (energyReads 2000) 100000000000000 ∧ ¬ SpinExact .default (energyReads 0) 184467440737096 := by
  constructor
  · exact ((spin_energy_exact (energyReads 2000) 100000000000000).1 (by decide)
      ⟨by decide, by decide, by decide⟩ (show 100000000000000 * 100000 < 2 ^ 64 by norm_num)).1
  · rw [(spin_energy_exact (energyReads 0) 184467440737096).2 rfl]
    show ¬ 184467440737096 * 100000 < 2 ^ 64
    norm_num

open Sample in
/-- One picocoin more and the spin of the largest lock that fits falls to nothing. -/
theorem larger_lock_spins_slower : computeSpin .default (energyReads 0) 184467440737095 = .ok 2716 ∧
      computeSpin .default (energyReads 0) 184467440737096 = .ok 0 ∧
      exactSpin .default 0 184467440737096 240 = 2716 := by
  refine ⟨by decide +kernel, by decide +kernel, ?_⟩
  have hr : Nat.sqrt 7378697629483840000 = 2716375826 := (Nat.eq_sqrt.mpr ⟨by norm_num, by norm_num⟩).symm
  show Nat.sqrt 7378697629483840000 / 10 ^ 6 = 2716
  rw [hr]
  rfl

end Gyro
