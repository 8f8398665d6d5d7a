import Gyro.Config
import Gyro.Lib.Isqrt

/-!
# Spins and the cumulative gyro

`common/spin.cpp` and `common/gyro.cpp`. A vector is a magnitude times 256
signed bytes. Unsigned 128-bit values wrap; the components of a sum are exact,
since they stay far below the 256 bits they are computed in.
-/

namespace Gyro

open IntegerRoot

structure Components where
  toList : List Int8
  length_eq : toList.length = gyroNumberOfDimensionals
  deriving DecidableEq

def Components.unit : Components where
  toList := 1 :: List.replicate 255 0
  length_eq := by rw [List.length_cons, List.length_replicate]; rfl

def Components.values (v : Components) : List Int := v.toList.map (·.toInt)

def sumSquares (xs : List Int) : Nat := (xs.map fun x => (x * x).toNat).sum

def mediumModule : BitVec 128 := 1024

def calcVectorModule (v : Components) : BitVec 128 :=
  BitVec.ofNat 128 (isqrt 128 ((1 + sumSquares v.values) % 2 ^ 256))

def getModule (m : BitVec 128) (v : Components) : BitVec 128 :=
  calcVectorModule v * m / mediumModule + 1

structure SpinType where
  m : UInt64
  v : Components
  deriving DecidableEq

structure GyroType where
  M : BitVec 128
  m : BitVec 128
  v : Components
  deriving DecidableEq

namespace SpinType

def unit : SpinType := { m := 1, v := Components.unit }

def wideM (s : SpinType) : BitVec 128 := s.m.toBitVec.setWidth 128

def getModule (s : SpinType) : BitVec 128 := Gyro.getModule s.wideM s.v

end SpinType

namespace GyroType

def unit : GyroType := { M := 1, m := 1, v := Components.unit }

def getModule (g : GyroType) : BitVec 128 := Gyro.getModule g.m g.v

def ofSpin (s : SpinType) : GyroType := { M := s.getModule, m := s.getModule, v := s.v }

def sumComponents (g : GyroType) (s : SpinType) : List Int :=
  List.zipWith (fun a b => g.m.toNat * a + s.m.toNat * b) g.v.values s.v.values

def scale (V : List Int) : Int :=
  let min := V.foldl min (-128)
  let max := V.foldl max 127
  let Kmin := min.tdiv (-128)
  let Kmax := max.tdiv 127
  if Kmin > Kmax then Kmin else Kmax

def sumSquared (V : List Int) : Nat := (1 + sumSquares V) % 2 ^ 256

def quantize (V : List Int) : List Int8 := V.map fun a => Int8.ofIntClamp (a.tdiv (scale V))

theorem quantize_length (g : GyroType) (s : SpinType) :
    (quantize (sumComponents g s)).length = gyroNumberOfDimensionals := by
  simp [quantize, sumComponents, Components.values, g.v.length_eq, s.v.length_eq]

def addSpin (g : GyroType) (s : SpinType) : GyroType :=
  let V := sumComponents g s
  let v : Components := { toList := quantize V, length_eq := quantize_length g s }
  { M := g.M + s.getModule
    m := BitVec.ofNat 128 (isqrt 128 (sumSquared V)) / calcVectorModule v
    v := v }

end GyroType

end Gyro
