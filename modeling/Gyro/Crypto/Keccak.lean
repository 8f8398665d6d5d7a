import Gyro.Config

/-!
# `cn_fast_hash`

Keccak-1600 as `crypto/keccak.c` computes it. The state is five rows of five
lanes, lane `i` of row `j` being `st[5 * j + i]`. The first 32 bytes of the
final state are the hash.
-/

namespace Gyro

namespace Keccak

structure Row where
  (x0 x1 x2 x3 x4 : UInt64)
  deriving DecidableEq

structure State where
  (r0 r1 r2 r3 r4 : Row)
  deriving DecidableEq

def keccakfRndc : List UInt64 :=
  [0x0000000000000001, 0x0000000000008082, 0x800000000000808a,
   0x8000000080008000, 0x000000000000808b, 0x0000000080000001,
   0x8000000080008081, 0x8000000000008009, 0x000000000000008a,
   0x0000000000000088, 0x0000000080008009, 0x000000008000000a,
   0x000000008000808b, 0x800000000000008b, 0x8000000000008089,
   0x8000000000008003, 0x8000000000008002, 0x8000000000000080,
   0x000000000000800a, 0x800000008000000a, 0x8000000080008081,
   0x8000000000008080, 0x0000000080000001, 0x8000000080008008]

def rotl64 (x n : UInt64) : UInt64 := (x <<< n) ||| (x >>> (64 - n))

def Row.xor : Row → Row → Row
  | ⟨a0, a1, a2, a3, a4⟩, ⟨b0, b1, b2, b3, b4⟩ =>
    ⟨a0 ^^^ b0, a1 ^^^ b1, a2 ^^^ b2, a3 ^^^ b3, a4 ^^^ b4⟩

def State.zero : State :=
  let r : Row := ⟨0, 0, 0, 0, 0⟩
  ⟨r, r, r, r, r⟩

def theta : State → State
  | ⟨r0, r1, r2, r3, r4⟩ =>
    match (((r0.xor r1).xor r2).xor r3).xor r4 with
    | ⟨b0, b1, b2, b3, b4⟩ =>
      let t : Row := ⟨b4 ^^^ rotl64 b1 1, b0 ^^^ rotl64 b2 1, b1 ^^^ rotl64 b3 1,
        b2 ^^^ rotl64 b4 1, b3 ^^^ rotl64 b0 1⟩
      ⟨r0.xor t, r1.xor t, r2.xor t, r3.xor t, r4.xor t⟩

def rhoPi : State → State
  | ⟨⟨a0, a1, a2, a3, a4⟩, ⟨b0, b1, b2, b3, b4⟩, ⟨c0, c1, c2, c3, c4⟩, ⟨d0, d1, d2, d3, d4⟩, ⟨e0, e1, e2, e3, e4⟩⟩ =>
    ⟨⟨a0, rotl64 b1 44, rotl64 c2 43, rotl64 d3 21, rotl64 e4 14⟩,
     ⟨rotl64 a3 28, rotl64 b4 20, rotl64 c0 3, rotl64 d1 45, rotl64 e2 61⟩,
     ⟨rotl64 a1 1, rotl64 b2 6, rotl64 c3 25, rotl64 d4 8, rotl64 e0 18⟩,
     ⟨rotl64 a4 27, rotl64 b0 36, rotl64 c1 10, rotl64 d2 15, rotl64 e3 56⟩,
     ⟨rotl64 a2 62, rotl64 b3 55, rotl64 c4 39, rotl64 d0 41, rotl64 e1 2⟩⟩

def chiRow : Row → Row
  | ⟨x0, x1, x2, x3, x4⟩ =>
    ⟨x0 ^^^ (~~~x1 &&& x2), x1 ^^^ (~~~x2 &&& x3), x2 ^^^ (~~~x3 &&& x4),
     x3 ^^^ (~~~x4 &&& x0), x4 ^^^ (~~~x0 &&& x1)⟩

def chi : State → State
  | ⟨r0, r1, r2, r3, r4⟩ => ⟨chiRow r0, chiRow r1, chiRow r2, chiRow r3, chiRow r4⟩

def iota (rndc : UInt64) : State → State
  | ⟨⟨x0, x1, x2, x3, x4⟩, r1, r2, r3, r4⟩ => ⟨⟨x0 ^^^ rndc, x1, x2, x3, x4⟩, r1, r2, r3, r4⟩

def keccakf (st : State) : State :=
  keccakfRndc.foldl (fun st rndc => iota rndc (chi (rhoPi (theta st)))) st

def rsiz : Nat := 136

def words : List UInt8 → List UInt64
  | b0 :: b1 :: b2 :: b3 :: b4 :: b5 :: b6 :: b7 :: rest =>
    (b0.toUInt64 ||| (b1.toUInt64 <<< 8) ||| (b2.toUInt64 <<< 16) ||| (b3.toUInt64 <<< 24) |||
      (b4.toUInt64 <<< 32) ||| (b5.toUInt64 <<< 40) ||| (b6.toUInt64 <<< 48) ||| (b7.toUInt64 <<< 56)) :: words rest
  | _ => []

def absorb (st : State) (block : List UInt8) : State :=
  match words block, st with
  | [w0, w1, w2, w3, w4, w5, w6, w7, w8, w9, w10, w11, w12, w13, w14, w15, w16],
      ⟨r0, r1, r2, r3, r4⟩ =>
    keccakf ⟨r0.xor ⟨w0, w1, w2, w3, w4⟩, r1.xor ⟨w5, w6, w7, w8, w9⟩,
      r2.xor ⟨w10, w11, w12, w13, w14⟩, r3.xor ⟨w15, w16, 0, 0, 0⟩, r4⟩
  | _, _ => st

def padded (block : List UInt8) : List UInt8 :=
  if block.length + 1 = rsiz then block ++ [0x81]
  else block ++ 1 :: List.replicate (rsiz - 2 - block.length) 0 ++ [0x80]

def absorbAll : Nat → State → List UInt8 → State
  | 0, st, data => absorb st (padded data)
  | fuel + 1, st, data =>
    if rsiz ≤ data.length then absorbAll fuel (absorb st (data.take rsiz)) (data.drop rsiz)
    else absorb st (padded data)

def keccak1600 (data : List UInt8) : State :=
  absorbAll (data.length / rsiz) State.zero data

end Keccak

def cnFastHash (data : Blob) : Hash :=
  match Keccak.keccak1600 data with
  | ⟨⟨x0, x1, x2, x3, _⟩, _, _, _, _⟩ =>
    x3.toBitVec ++ x2.toBitVec ++ x1.toBitVec ++ x0.toBitVec

def bytesOf {w : Nat} : Nat → BitVec w → Blob
  | 0, _ => []
  | n + 1, x => UInt8.ofBitVec (x.setWidth 8) :: bytesOf n (x >>> 8)

def hashBytes (h : Hash) : Blob := bytesOf 32 h

theorem bytesOf_length {w : Nat} (n : Nat) (x : BitVec w) : (bytesOf n x).length = n := by
  induction n generalizing x with
  | zero => rfl
  | succ n ih => simp [bytesOf, ih]

theorem bytesOf_getLsbD {w : Nat} {n : Nat} {x y : BitVec w} (h : bytesOf n x = bytesOf n y) :
    ∀ i < 8 * n, x.getLsbD i = y.getLsbD i := by
  induction n generalizing x y with
  | zero => intro i hi; omega
  | succ n ih =>
    simp only [bytesOf, List.cons.injEq] at h
    obtain ⟨hb, hr⟩ := h
    intro i hi
    by_cases hl : i < 8
    · have ho : x.setWidth 8 = y.setWidth 8 := by simpa using congrArg UInt8.toBitVec hb
      simpa [hl] using congrArg (·.getLsbD i) ho
    · have hbi := ih hr (i - 8) (by omega)
      have hi8 : 8 + (i - 8) = i := by omega
      simpa [hi8] using hbi

theorem bytesOf_injective {n : Nat} {x y : BitVec (8 * n)} (h : bytesOf n x = bytesOf n y) : x = y := by
  apply BitVec.eq_of_getLsbD_eq
  intro i hi
  exact bytesOf_getLsbD h i hi

end Gyro
