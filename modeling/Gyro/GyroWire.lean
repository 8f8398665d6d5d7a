import Gyro.OneEncoding

/-!
# Gyros and spinner data as bytes

`serialization/gyro_type.h`, `serialization/spin_type.h` and `spinner_data.h`. The components stand
at the end of a gyro and of a spin, so no number in them is ended by the end of the input.
-/

namespace Gyro.Wire

open WireFormat

/-- `gyro_raw_type`: the two 128-bit numbers in halves. -/
structure GyroRaw where
  H : UInt64
  L : UInt64
  h : UInt64
  l : UInt64
  v : Components

def wide (half : UInt64) : BitVec 128 := half.toBitVec.setWidth 128

def lowHalf (x : BitVec 128) : UInt64 := ⟨(x &&& 0xffffffffffffffff).setWidth 64⟩

def fromRaw (raw : GyroRaw) : GyroType where
  M := (wide raw.H <<< 64) + wide raw.L
  m := (wide raw.h <<< 64) + wide raw.l
  v := raw.v

def toRaw (g : GyroType) : GyroRaw where
  H := lowHalf (g.M >>> 64)
  L := lowHalf g.M
  h := lowHalf (g.m >>> 64)
  l := lowHalf g.m
  v := g.v

theorem toNat_lowHalf (x : BitVec 128) : (lowHalf x).toNat = x.toNat % 2 ^ 64 := by
  have ha : x.toNat &&& 0xffffffffffffffff = x.toNat % 2 ^ 64 := Nat.and_two_pow_sub_one_eq_mod x.toNat 64
  change (x.toNat &&& 0xffffffffffffffff) % 2 ^ 64 = _
  rw [ha, Nat.mod_mod]

theorem join_halves (x : BitVec 128) : (wide (lowHalf (x >>> 64)) <<< 64) + wide (lowHalf x) = x := by
  have hl := toNat_lowHalf x
  have hh := toNat_lowHalf (x >>> 64)
  apply BitVec.eq_of_toNat_eq
  simp [wide, Nat.shiftLeft_eq, Nat.shiftRight_eq_div_pow] at hl hh ⊢
  omega

theorem halves_joined (high low : UInt64) :
    lowHalf (((wide high <<< 64) + wide low) >>> 64) = high ∧ lowHalf ((wide high <<< 64) + wide low) = low := by
  have hh := high.toNat_lt
  have hl := low.toNat_lt
  constructor
  · rw [← UInt64.toNat_inj, toNat_lowHalf]
    simp [wide, Nat.shiftLeft_eq, Nat.shiftRight_eq_div_pow]
    omega
  · rw [← UInt64.toNat_inj, toNat_lowHalf]
    simp [wide, Nat.shiftLeft_eq]

theorem fromRaw_toRaw (g : GyroType) : fromRaw (toRaw g) = g := by
  simp only [fromRaw, toRaw, join_halves]

theorem toRaw_fromRaw (raw : GyroRaw) : toRaw (fromRaw raw) = raw := by
  simp only [fromRaw, toRaw, halves_joined]

def components : WireFormat Components :=
  (blob gyroNumberOfDimensionals).via
    (fun b => if h : b.length = gyroNumberOfDimensionals then ⟨b.map UInt8.toInt8, by rwa [List.length_map]⟩ else .unit)
    (fun v => some (v.toList.map Int8.toUInt8))
    (by
      intro b bytes h
      rw [dif_pos (length_of_write_blob h)]
      simp [Function.comp_def])
    (by
      intro b v h
      cases h
      rw [dif_pos (by rw [List.length_map, v.length_eq])]
      simp [Function.comp_def])

def gyroRaw : WireFormat GyroRaw :=
  (varint64.pair (varint64.pair (varint64.pair (varint64.pair components)))).iso
    (fun p => ⟨p.1, p.2.1, p.2.2.1, p.2.2.2.1, p.2.2.2.2⟩) (fun r => (r.H, r.L, r.h, r.l, r.v))
    (fun _ => rfl) (fun _ => rfl)

def gyro : WireFormat GyroType := gyroRaw.iso fromRaw toRaw toRaw_fromRaw fromRaw_toRaw

def spin : WireFormat SpinType :=
  (varint64.pair components).iso (fun p => ⟨p.1, p.2⟩) (fun s => (s.m, s.v)) (fun _ => rfl) (fun _ => rfl)

/-! ## The end of the input -/

/-- Where a number is ended by the end of the input, nothing is left to read. -/
def Ended (s : Input) : Prop := s.cut = true → s.bytes = []

section
variable {α β : Type} {first : WireFormat α} {second : WireFormat β} {s t : Input} {u : UInt64} {v : Components}

theorem varint64_ended (h : varint64.read s = some (u, t)) (hs : Ended s) : Ended t := by
  obtain ⟨p, hp, heq⟩ := Option.map_eq_some_iff.mp h
  cases heq
  obtain ⟨⟨n, rest, cut⟩, hr, heq⟩ := Option.map_eq_some_iff.mp hp
  cases heq
  intro hc
  rcases Bool.or_eq_true_iff.mp hc with hc | hc
  · rw [hs hc] at hr
    cases hr
    rfl
  · exact (readNumber_cut hr).2 hc

theorem components_not_cut (h : components.read s = some (v, t)) (hs : Ended s) : t.cut = false := by
  obtain ⟨p, hp, heq⟩ := Option.map_eq_some_iff.mp h
  cases heq
  simp only [blob] at hp
  split at hp
  · rename_i hl
    cases hp
    rw [← Bool.not_eq_true]
    intro hc
    rw [hs hc] at hl
    exact absurd hl (by decide)
  · cases hp

theorem varint64_pair_not_cut (hse : ∀ {s b t}, second.read s = some (b, t) → Ended s → t.cut = false)
    {p : UInt64 × β} (h : (varint64.pair second).read s = some (p, t)) (hs : Ended s) : t.cut = false := by
  obtain ⟨q, hq, hrs⟩ := Option.bind_eq_some_iff.mp h
  obtain ⟨r, hr, heq⟩ := Option.map_eq_some_iff.mp hrs
  cases heq
  exact hse hr (varint64_ended hq hs)

theorem gyro_not_cut {g : GyroType} (h : gyro.read s = some (g, t)) (hs : Ended s) : t.cut = false := by
  obtain ⟨⟨raw, _⟩, hr, heq⟩ := Option.map_eq_some_iff.mp h
  cases heq
  obtain ⟨⟨p, _⟩, hp, heq⟩ := Option.map_eq_some_iff.mp hr
  cases heq
  exact varint64_pair_not_cut (varint64_pair_not_cut (varint64_pair_not_cut
    (varint64_pair_not_cut components_not_cut))) hp hs

/-! ## Everything is written -/

theorem write_varint64 (u : UInt64) : (varint64.write u).isSome = true := by
  change (if u.toNat < 2 ^ 64 then some _ else none).isSome = true
  rw [if_pos u.toNat_lt]
  rfl

theorem write_components (v : Components) : (components.write v).isSome = true := by
  change (if (v.toList.map Int8.toUInt8).length = gyroNumberOfDimensionals then some _ else none).isSome = true
  rw [if_pos (by rw [List.length_map, v.length_eq])]
  rfl

theorem write_pair (hf : ∀ a, (first.write a).isSome = true) (hs : ∀ b, (second.write b).isSome = true)
    (p : α × β) : ((first.pair second).write p).isSome = true := by
  obtain ⟨x, hx⟩ := Option.isSome_iff_exists.mp (hf p.1)
  obtain ⟨y, hy⟩ := Option.isSome_iff_exists.mp (hs p.2)
  simp [pair, sigma, hx, hy]

theorem parse_written {a : α} (h : (first.write a).isSome = true) :
    ∃ bytes, first.write a = some bytes ∧ first.parse bytes = some a := by
  obtain ⟨bytes, hb⟩ := Option.isSome_iff_exists.mp h
  exact ⟨bytes, hb, parse_write hb⟩

theorem write_gyro (g : GyroType) : (gyro.write g).isSome = true :=
  write_pair write_varint64 (write_pair write_varint64 (write_pair write_varint64
    (write_pair write_varint64 write_components))) _

theorem write_spin (s : SpinType) : (spin.write s).isSome = true := write_pair write_varint64 write_components _

end

/-! ## Spinner data -/

section
variable {rest : Blob}

theorem readBlob_append {b : Blob} {n : Nat} (h : b.length = n) : readBlob n (b ++ rest) = some (b, rest) := by
  subst h
  simp [readBlob]

theorem readKey_bytesOf (k : BitVec 256) : readKey (bytesOf 32 k ++ rest) = some (k, rest) := by
  simp [readKey, readBlob_append (bytesOf_length _ _), ofBytes_bytesOf]

theorem readSignature_bytesOf (sig : Signature) : readSignature (bytesOf 64 sig ++ rest) = some (sig, rest) := by
  simp [readSignature, readBlob_append (bytesOf_length _ _), ofBytes_bytesOf]

theorem readMany_flatMap {α : Type} {read : Reader α} {write : α → Blob}
    (h : ∀ a rest, read (write a ++ rest) = some (a, rest)) (l : List α) :
    readMany read l.length (l.flatMap write ++ rest) = some (l, rest) := by
  induction l with
  | nil => rfl
  | cons a l ih => simp [readMany, h, ih]

theorem readProofPair_write (p : ProofPair) (rest : Blob) : readProofPair (writeProofPair p ++ rest) = some (p, rest) := by
  simp [readProofPair, writeProofPair, readKey_bytesOf, readSignature_bytesOf]

theorem readVector_pairs {pairs : List ProofPair} (h : pairs.length < 2 ^ 64) :
    readVector readProofPair (Gyro.writeVarint (UInt64.ofNat pairs.length) ++
      (pairs.flatMap writeProofPair ++ rest)) = some (pairs, rest) := by
  have hc : (UInt64.ofNat pairs.length).toNat = pairs.length := UInt64.toNat_ofNat_of_lt' h
  have hs : (pairs.flatMap writeProofPair).length = pairs.length * 96 := by
    simp [writeProofPair, bytesOf_length]
  have hr : ¬(pairs.flatMap writeProofPair ++ rest).length < pairs.length := by
    rw [List.length_append]
    omega
  simp only [readVector, Reader.bind_apply, readVarint_writeVarint, Option.bind_some, hc,
    Reader.get_apply, if_neg hr]
  exact readMany_flatMap readProofPair_write pairs

theorem parse_writeSpinnerData {d : SpinnerData} (h : d.nfo.proof.pairs.length < 2 ^ 64) :
    parseSpinnerData (writeSpinnerData d) = some d := by
  have hl : ∀ i, Gyro.readVarint (Gyro.writeVarint i) = some (i, []) := by
    intro i
    simpa using readVarint_writeVarint i []
  have hr : readSpinnerData (writeSpinnerData d) = some (d, []) := by
    simp [readSpinnerData, writeSpinnerData, readSpinnerInfo, writeSpinnerInfo, readSpinnerTxProof, writeSpinnerTxProof,
      hashBytes, readKey_bytesOf, readVector_pairs h, readSignature_bytesOf, readVarint_writeVarint, hl]
  rw [parseSpinnerData, parseBinary, hr]

end

end Gyro.Wire
