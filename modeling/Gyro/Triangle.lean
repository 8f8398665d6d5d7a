import Gyro.Spin
import Gyro.Lib.Runs

/-!
# The module of the gyro against the sum of the modules

`M` adds up the modules of the spins, `get_module` measures the vector sum. Lengths are
rounded down before they are scaled, so `get_module ≤ M` needs a condition.
-/

namespace Gyro

open IntegerRoot Runs

namespace GyroType

def fold (g : GyroType) (s : SpinType) : Option GyroType := some (g.addSpin s)

def NoWrap (g : GyroType) (s : SpinType) : Prop := g.M.toNat + s.getModule.toNat < 2 ^ 128

def Shortens (g : GyroType) (s : SpinType) : Prop :=
  1 + sumSquares (sumComponents g s) <
    (1024 * (g.getModule.toNat + s.getModule.toNat)) * (1024 * (g.getModule.toNat + s.getModule.toNat))

instance (g : GyroType) (s : SpinType) : Decidable (NoWrap g s) :=
  inferInstanceAs (Decidable (_ < _))

instance (g : GyroType) (s : SpinType) : Decidable (Shortens g s) :=
  inferInstanceAs (Decidable (_ < _))

theorem sumSquared_lt (V : List Int) : sumSquared V < 4 ^ 128 := by
  exact Nat.mod_lt _ (by norm_num)

theorem root_lt (V : List Int) : isqrt 128 (sumSquared V) < 2 ^ 128 :=
  isqrt_lt_two_pow (sumSquared_lt V)

theorem getModule_addSpin_le (g : GyroType) (s : SpinType) :
    (g.addSpin s).getModule.toNat ≤ isqrt 128 (sumSquared (sumComponents g s)) / 1024 + 1 := by
  have hr := root_lt (sumComponents g s)
  set r := isqrt 128 (sumSquared (sumComponents g s)) with hd
  set c := calcVectorModule (g.addSpin s).v with hc
  have hm : (g.addSpin s).m.toNat = r / c.toNat := by
    change (BitVec.ofNat 128 r / c).toNat = r / c.toNat
    rw [BitVec.toNat_udiv, BitVec.toNat_ofNat, Nat.mod_eq_of_lt hr]
  have hp : c.toNat * (r / c.toNat) ≤ r := Nat.mul_div_le r c.toNat
  have hmul : (c * (g.addSpin s).m).toNat = c.toNat * (r / c.toNat) := by
    rw [BitVec.toNat_mul, hm, Nat.mod_eq_of_lt (by omega)]
  change (c * (g.addSpin s).m / mediumModule + 1).toNat ≤ _
  have hme : mediumModule.toNat = 1024 := rfl
  have ho : (1 : BitVec 128).toNat = 1 := rfl
  rw [BitVec.toNat_add, BitVec.toNat_udiv, hme, ho]
  omega

variable {g : GyroType} {s : SpinType}

theorem root_lt_of_shortens (h : Shortens g s) : isqrt 128 (sumSquared (sumComponents g s)) <
      1024 * (g.getModule.toNat + s.getModule.toNat) := by
  rw [isqrt_lt_iff (sumSquared_lt _)]
  exact Nat.lt_of_le_of_lt (Nat.mod_le _ _) h

theorem addSpin_module_le (h : Shortens g s) :
    (g.addSpin s).getModule.toNat ≤ g.getModule.toNat + s.getModule.toNat := by
  have hr := root_lt_of_shortens h
  have hle := getModule_addSpin_le g s
  omega

theorem addSpin_M (h : NoWrap g s) : (g.addSpin s).M.toNat = g.M.toNat + s.getModule.toNat := by
  change (g.M + s.getModule).toNat = _
  rw [BitVec.toNat_add, Nat.mod_eq_of_lt h]

def ModuleBounded (g : GyroType) : Prop := g.getModule.toNat ≤ g.M.toNat

theorem addSpin_moduleBounded (hg : ModuleBounded g)
    (hw : NoWrap g s) (hs : Shortens g s) : ModuleBounded (g.addSpin s) := by
  unfold ModuleBounded at hg ⊢
  rw [addSpin_M hw]
  have := addSpin_module_le hs
  omega

theorem unit_moduleBounded : ModuleBounded unit := by
  unfold ModuleBounded
  decide +kernel

def axialSpin : SpinType := { m := 1024, v := Components.unit }

def diagonalSpin : SpinType where
  m := 1000000
  v := { toList := 1 :: 1 :: List.replicate 254 0
         length_eq := by rw [List.length_cons, List.length_cons, List.length_replicate]; rfl }

end GyroType

end Gyro
