import Mathlib.Tactic.Ring
import Gyro.Lib.KeyValue

/-!
# Unsigned integers in MessagePack

An integer below 2^64 takes the shortest of five forms. The bytewise order of the
encodings is the order of the integers, and none is a prefix of another.
-/

namespace Msgpack

open KeyValue

def byte (n : Nat) : UInt8 := UInt8.ofNat n

def bigEndian : Nat → Nat → List UInt8
  | 0, _ => []
  | k + 1, n => byte (n / 256 ^ k) :: bigEndian k n

def packUInt (n : Nat) : List UInt8 :=
  if n < 2 ^ 7 then [byte n]
  else if n < 2 ^ 8 then 0xcc :: bigEndian 1 n
  else if n < 2 ^ 16 then 0xcd :: bigEndian 2 n
  else if n < 2 ^ 32 then 0xce :: bigEndian 4 n
  else 0xcf :: bigEndian 8 n

def takeBigEndian : Nat → List UInt8 → Nat → Option (Nat × List UInt8)
  | 0, bs, acc => some (acc, bs)
  | _ + 1, [], _ => none
  | k + 1, b :: bs, acc => takeBigEndian k bs (acc * 256 + b.toNat)

def unpackUInt : List UInt8 → Option (Nat × List UInt8)
  | [] => none
  | b :: bs =>
    if b < 0x80 then some (b.toNat, bs)
    else if b = 0xcc then takeBigEndian 1 bs 0
    else if b = 0xcd then takeBigEndian 2 bs 0
    else if b = 0xce then takeBigEndian 4 bs 0
    else if b = 0xcf then takeBigEndian 8 bs 0
    else none

variable {k n m acc : Nat} {s t rest : List UInt8}

@[simp] theorem toNat_byte (n : Nat) : (byte n).toNat = n % 256 := by simp [byte]

theorem byte_lt (h : n % 256 < m % 256) : byte n < byte m := by
  simpa [UInt8.lt_iff_toNat_lt] using h

theorem byte_congr (h : n % 256 = m % 256) : byte n = byte m := by
  apply UInt8.toNat_inj.mp
  simpa using h

theorem bigEndian_lt (hl : n % 256 ^ k < m % 256 ^ k) : bigEndian k n ++ s < bigEndian k m ++ t := by
  induction k with
  | zero => simp [Nat.mod_one] at hl
  | succ k ih =>
    rw [Nat.mod_pow_succ, Nat.mod_pow_succ] at hl
    apply Store.cons_lt_cons.mpr
    rcases lt_trichotomy (n / 256 ^ k % 256) (m / 256 ^ k % 256) with hq | hq | hq
    · exact Or.inl (byte_lt hq)
    · exact Or.inr ⟨byte_congr hq, ih (by rw [hq] at hl; omega)⟩
    · have := Nat.mul_le_mul_left (256 ^ k) hq
      rw [Nat.mul_succ] at this
      omega

theorem takeBigEndian_bigEndian :
    takeBigEndian k (bigEndian k n ++ rest) acc = some (acc * 256 ^ k + n % 256 ^ k, rest) := by
  induction k generalizing acc with
  | zero => simp [takeBigEndian, bigEndian, Nat.mod_one]
  | succ k ih =>
    simp only [bigEndian, List.cons_append, takeBigEndian, ih, toNat_byte, Nat.mod_pow_succ, Option.some.injEq,
      Prod.mk.injEq, and_true]
    ring

theorem byte_lt_form {f : UInt8} (hn : n < 2 ^ 7) (hf : 0x80 ≤ f) : byte n < f := by
  have hf' : 128 ≤ f.toNat := UInt8.le_iff_toNat_le.mp hf
  rw [UInt8.lt_iff_toNat_lt, toNat_byte]
  omega

/-- The order of the encodings is the order of the integers. -/
theorem packUInt_lt (hm : m < 2 ^ 64) (hl : n < m) : packUInt n ++ s < packUInt m ++ t := by
  have hf : ∀ {a b : UInt8} {x y : Key}, a < b → a :: x < b :: y := fun h => Store.cons_lt_cons.mpr (Or.inl h)
  have hs : ∀ {a : UInt8} {x y : Key}, x < y → a :: x < a :: y :=
    fun h => Store.cons_lt_cons.mpr (Or.inr ⟨rfl, h⟩)
  have hr : ∀ k, m < 256 ^ k → bigEndian k n ++ s < bigEndian k m ++ t := by
    intro k hk
    apply bigEndian_lt
    rwa [Nat.mod_eq_of_lt (hl.trans hk), Nat.mod_eq_of_lt hk]
  unfold packUInt
  split_ifs with hn7 hm7 hn8 hm8 hm16
  all_goals first
    | omega
    | exact hs (hr _ (by omega))
    | exact hf (by decide)
    | exact hf (byte_lt (by omega))
    | exact hf (byte_lt_form hn7 (by decide))

theorem unpackUInt_packUInt (hn : n < 2 ^ 64) : unpackUInt (packUInt n ++ rest) = some (n, rest) := by
  unfold packUInt
  split_ifs with h7 h8 h16 h32
  · have hs : byte n < 0x80 := byte_lt_form h7 (by decide)
    have hv : n % 256 = n := by omega
    simp [unpackUInt, hs, hv]
  all_goals
    simp [unpackUInt, takeBigEndian_bigEndian]
    omega

theorem packUInt_prefix (hn : n < 2 ^ 64) (hm : m < 2 ^ 64) (h : packUInt n <+: packUInt m ++ t) : n = m := by
  obtain ⟨rest, hre⟩ := h
  have hr : unpackUInt (packUInt n ++ rest) = some (n, rest) := unpackUInt_packUInt hn
  rw [hre, unpackUInt_packUInt hm] at hr
  exact (Prod.mk.inj (Option.some.inj hr)).1.symm

end Msgpack
