import Gyro.Lib.WireFormat
import Gyro.Serialization

/-!
# Reading what the archive wrote

Numbers are written as digits to the base 128, the lowest first, each but the last
with its high bit set. The reader of `Gyro.Serialization` gives the number back.
-/

namespace Gyro

open WireFormat

/-! ## Running a reader -/

namespace Reader

variable {α β : Type} (bytes : Blob)

@[simp] theorem pure_apply (a : α) : (pure a : Reader α) bytes = some (a, bytes) := rfl

@[simp] theorem bind_apply (read : Reader α) (f : α → Reader β) :
    (read >>= f) bytes = (read bytes).bind fun p => f p.1 p.2 := rfl

@[simp] theorem map_apply (f : α → β) (read : Reader α) :
    (f <$> read) bytes = (read bytes).map fun p => (f p.1, p.2) := by
  change (read bytes).bind (fun p => some (f p.1, p.2)) = _
  cases read bytes <;> rfl

@[simp] theorem get_apply : (get : Reader Blob) bytes = some (bytes, bytes) := rfl

@[simp] theorem failure_apply : (failure : Reader α) bytes = none := rfl

end Reader

/-! ## Variable-length numbers -/

section
variable {i write : UInt64} {shift fuel : Nat}

theorem toNat_and_7f (byte : UInt8) : (byte &&& 0x7f).toUInt64.toNat = byte.toNat % 128 := by
  have ha := Nat.and_two_pow_sub_one_eq_mod byte.toNat 7
  simpa using ha

theorem and_80_eq_zero (byte : UInt8) : byte &&& 0x80 = 0 ↔ byte.toNat < 128 := by
  have hb : ∀ n < 256, n &&& 128 = 0 ↔ n < 128 := by decide +kernel
  rw [← UInt8.toNat_inj]
  simpa using hb byte.toNat byte.toNat_lt

theorem toNat_digit (i : UInt64) : ((i &&& 0x7f).toUInt8 ||| 0x80).toNat = i.toNat % 128 + 128 := by
  have hb : ∀ n < 128, n ||| 128 = n + 128 := by decide +kernel
  have ha : i.toNat % 256 &&& 127 = i.toNat % 256 % 128 := Nat.and_two_pow_sub_one_eq_mod _ 7
  have hl : i.toNat % 256 % 128 = i.toNat % 128 := by omega
  simp [ha, hl, hb (i.toNat % 128) (by omega)]

theorem toNat_or_digit (byte : UInt8) (hr : write.toNat < 2 ^ shift) (hi : shift < 64)
    (hf : byte.toNat % 128 * 2 ^ shift < 2 ^ 64) : (write ||| ((byte &&& 0x7f).toUInt64 <<< UInt64.ofNat shift)).toNat =
      write.toNat + byte.toNat % 128 * 2 ^ shift := by
  have hs : (UInt64.ofNat shift).toNat % 64 = shift := by
    rw [UInt64.toNat_ofNat_of_lt' (by show shift < 2 ^ 64; omega)]
    omega
  have ho := Nat.two_pow_add_eq_or_of_lt hr (byte.toNat % 128)
  rw [UInt64.toNat_or, UInt64.toNat_shiftLeft, toNat_and_7f, hs, Nat.shiftLeft_eq, Nat.mod_eq_of_lt hf, Nat.or_comm,
    Nat.mul_comm, ← ho, Nat.add_comm]

theorem readVarintFrom_eq {bytes : Blob} (hs : shift < 64) (hwr : write.toNat < 2 ^ shift) :
    readVarintFrom shift write bytes =
      (readNumber 64 shift write.toNat bytes).map fun p => (UInt64.ofNat p.1, p.2.1) := by
  induction bytes generalizing shift write with
  | nil => simp [readVarintFrom, readNumber]
  | cons byte rest ih =>
    rw [readVarintFrom, readNumber]
    split
    · rfl
    · rename_i ho
      split
      · rfl
      · have hpo : 2 ^ (shift + 7) = 128 * 2 ^ shift := by rw [pow_add, Nat.mul_comm]; rfl
        have hlo : byte.toNat % 128 * 2 ^ shift ≤ 127 * 2 ^ shift := Nat.mul_le_mul_right _ (by omega)
        have hr : byte.toNat < 2 ^ (64 - shift) ∨ shift + 7 < 64 := by
          rw [not_and_or, not_le, not_le] at ho
          exact ho.symm
        have hf : byte.toNat % 128 * 2 ^ shift < 2 ^ 64 := by
          rcases hr with hl | hl
          · have hp : 2 ^ 64 = 2 ^ (64 - shift) * 2 ^ shift := by rw [← pow_add, Nat.sub_add_cancel hs.le]
            rw [hp]
            exact Nat.mul_lt_mul_of_pos_right ((Nat.mod_le _ _).trans_lt hl) (Nat.two_pow_pos _)
          · have hle : 2 ^ (shift + 7) ≤ 2 ^ 64 := Nat.pow_le_pow_right (by decide) hl.le
            omega
        have hv := toNat_or_digit byte hwr hs hf
        simp only [and_80_eq_zero]
        split
        · rw [← hv, Option.map_some, UInt64.ofNat_toNat]
        · have hn : shift + 7 < 64 := by
            refine hr.elim (fun hl => ?_) id
            by_contra hg
            have hle : 2 ^ (64 - shift) ≤ 2 ^ 7 := Nat.pow_le_pow_right (by decide) (by omega)
            omega
          rw [ih hn (by omega), hv]

theorem writeVarintFrom_eq (h : i.toNat < 128 ^ (fuel + 1)) : writeVarintFrom (fuel + 1) i = writeNumber fuel i.toNat := by
  have hb : ∀ i : UInt64, 0x80 ≤ i ↔ 128 ≤ i.toNat := fun _ => UInt64.le_iff_toNat_le
  have hl : ∀ i : UInt64, i.toUInt8 = UInt8.ofNat i.toNat := fun _ => by simp
  induction fuel generalizing i with
  | zero => rw [writeVarintFrom, if_neg (by rw [hb]; omega), hl, writeNumber]
  | succ fuel ih =>
    have hdiv : (i >>> 7).toNat = i.toNat / 128 := by simp [Nat.shiftRight_eq_div_pow]
    have hd : (i &&& 0x7f).toUInt8 ||| 0x80 = UInt8.ofNat (i.toNat % 128 + 128) := by
      rw [← toNat_digit, UInt8.ofNat_toNat]
    rw [writeVarintFrom, writeNumber, hd, hl, ← hdiv, ih]
    · simp only [hb]
    · rw [hdiv, Nat.div_lt_iff_lt_mul (by decide)]
      exact h

theorem readVarint_writeVarint (i : UInt64) (rest : Blob) : readVarint (writeVarint i ++ rest) = some (i, rest) := by
  have hl := i.toNat_lt
  rw [writeVarint, writeVarintFrom_eq (hl.trans (by decide)), readVarint, readVarintFrom_eq (by decide) (by decide)]
  have hr := @readNumber_writeNumber 64 9 0 0 i.toNat rest (hl.trans (by decide)) (by simpa using hl) (.inl rfl)
  rw [UInt64.toNat_zero, hr]
  simp

end

/-! ## Words as bytes -/

variable {w : Nat} {x : BitVec w} {bytes : Blob}

theorem ofBytes_cons (b : UInt8) : ofBytes w (b :: bytes) = ofBytes w bytes <<< 8 ||| b.toBitVec.setWidth w := rfl

theorem getLsbD_ofBytes {i : Nat} (hi : i < w) :
    (ofBytes w bytes).getLsbD i = (bytes[i / 8]?.map fun b => b.toBitVec.getLsbD (i % 8)).getD false := by
  induction bytes generalizing i with
  | nil => simp [ofBytes]
  | cons b bytes ih =>
    rw [ofBytes_cons, BitVec.getLsbD_or, BitVec.getLsbD_shiftLeft]
    by_cases hl : i < 8
    · have hdiv : i / 8 = 0 := by omega
      have ho : i % 8 = i := by omega
      simp [hl, hi, hdiv, ho]
    · have hdiv : i / 8 = (i - 8) / 8 + 1 := by omega
      have ho : i % 8 = (i - 8) % 8 := by omega
      have hh : b.toBitVec.getLsbD i = false := BitVec.getLsbD_of_ge _ _ (by omega)
      simp [hl, hi, hdiv, ho, hh, ih (show i - 8 < w by omega)]

theorem getElem?_bytesOf {n k : Nat} (hk : k < n) :
    (bytesOf n x)[k]? = some (UInt8.ofBitVec ((x >>> (8 * k)).setWidth 8)) := by
  induction n generalizing x k with
  | zero => omega
  | succ n ih =>
    cases k with
    | zero => simp [bytesOf]
    | succ k =>
      have hs : 8 + 8 * k = 8 * (k + 1) := by omega
      rw [bytesOf, List.getElem?_cons_succ, ih (by omega), ← BitVec.shiftRight_add, hs]

theorem ofBytes_bytesOf {n : Nat} (hw : w = 8 * n) : ofBytes w (bytesOf n x) = x := by
  apply BitVec.eq_of_getLsbD_eq
  intro i hi
  have hi8 : i / 8 < n := by omega
  have hb : 8 * (i / 8) + i % 8 = i := by omega
  have ho : i % 8 < 8 := by omega
  rw [getLsbD_ofBytes hi, getElem?_bytesOf hi8]
  simp [ho, hb]

theorem bytesOf_ofBytes (hw : 8 * bytes.length ≤ w) : bytesOf bytes.length (ofBytes w bytes) = bytes := by
  apply List.ext_getElem?
  intro k
  by_cases hk : k < bytes.length
  · rw [getElem?_bytesOf hk, List.getElem?_eq_getElem hk]
    congr 1
    apply UInt8.toBitVec_inj.mp
    apply BitVec.eq_of_getLsbD_eq
    intro i hi
    have hn : 8 * k + i < w := by omega
    have hdiv : (8 * k + i) / 8 = k := by omega
    have ho : (8 * k + i) % 8 = i := by omega
    simp [hi, getLsbD_ofBytes hn, hdiv, ho, List.getElem?_eq_getElem hk]
  · rw [List.getElem?_eq_none (by rw [bytesOf_length]; omega), List.getElem?_eq_none (by omega)]

end Gyro
