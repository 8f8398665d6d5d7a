import Gyro.Base58
import Gyro.OneEncoding

/-!
# Addresses as text

`encode_addr` and `decode_addr` (`common/base58.cpp`): a tag written as a varint and the data,
with four bytes of their hash behind them, in base 58.
-/

namespace Gyro.Base58

open List

variable (checksum : Blob → BitVec 32)

/-- The checksum is the first four bytes of `cn_fast_hash`. -/
def encodeAddr (tag : Nat) (data : Blob) : Blob :=
  let buf := Wire.writeVarint 64 tag ++ data
  encode (buf ++ bytesOf 4 (checksum buf))

def payloadOf (addrData : Blob) : Blob := addrData.take (addrData.length - 4)

def decodeAddr (addr : Blob) : Option (Nat × Blob) := do
  let addrData ← decode addr
  if addrData.length ≤ 4 then none
  else if addrData.drop (addrData.length - 4) ≠ bytesOf 4 (checksum (payloadOf addrData)) then none
  else
    let (tag, read) ← Wire.readVarint 64 (payloadOf addrData)
    if read = 0 then none else some (tag, (payloadOf addrData).drop read)

variable {checksum} {tag : Nat} {data addr : Blob}

theorem payloadOf_append (buf : Blob) (sum : BitVec 32) : payloadOf (buf ++ bytesOf 4 sum) = buf := by
  simp [payloadOf, bytesOf_length]

theorem drop_append_checksum (buf : Blob) (sum : BitVec 32) :
    (buf ++ bytesOf 4 sum).drop ((buf ++ bytesOf 4 sum).length - 4) = bytesOf 4 sum := by
  simp [bytesOf_length]

theorem length_writeVarint_pos : 0 < (Wire.writeVarint 64 tag).length := WireFormat.length_writeNumber_pos 64 tag

theorem decodeAddr_encodeAddr (ht : tag < 2 ^ 64) :
    decodeAddr checksum (encodeAddr checksum tag data) = some (tag, data) := by
  have hp := @length_writeVarint_pos tag
  have hlen : ¬ (Wire.writeVarint 64 tag ++ data ++ bytesOf 4 (checksum (Wire.writeVarint 64 tag ++ data))).length ≤ 4 := by
    simp [bytesOf_length]
    omega
  simp only [decodeAddr, encodeAddr, decode_encode, Option.bind_eq_bind, Option.bind_some, hlen, payloadOf_append,
    drop_append_checksum, Wire.read_writeVarint (by decide) ht]
  simp [hp.ne']

theorem decodeAddr_eq_some (h : decodeAddr checksum addr = some (tag, data)) : ∃ buf read,
    addr = encode (buf ++ bytesOf 4 (checksum buf)) ∧ decode addr = some (buf ++ bytesOf 4 (checksum buf)) ∧
      Wire.readVarint 64 buf = some (tag, read) ∧ data = buf.drop read := by
  obtain ⟨addrData, hd, h⟩ := Option.bind_eq_some_iff.mp h
  split at h
  · cases h
  split at h
  · cases h
  rename_i hu
  obtain ⟨⟨tag', read⟩, hr, h⟩ := Option.bind_eq_some_iff.mp h
  obtain ⟨-, rfl, rfl⟩ : read ≠ 0 ∧ tag' = tag ∧ (payloadOf addrData).drop read = data := by simpa using h
  have hs : addrData = payloadOf addrData ++ bytesOf 4 (checksum (payloadOf addrData)) := by
    rw [← not_not.mp hu, payloadOf, take_append_drop]
  exact ⟨payloadOf addrData, read, by rw [← hs, encode_of_decode hd], by rw [← hs, hd], hr, rfl⟩

/-- An address has another text than the one it is written as exactly if its tag is cut off by its end. -/
theorem base58_bijective_iff (checksum : Blob → BitVec 32) :
    (∀ data, decode (encode data) = some data) ∧ (∀ enc data, decode enc = some data → encode data = enc) ∧
    (∀ tag < 2 ^ 64, ∀ data, decodeAddr checksum (encodeAddr checksum tag data) = some (tag, data)) ∧
    ∀ addr tag data, decodeAddr checksum addr = some (tag, data) →
      (encodeAddr checksum tag data = addr ↔ ∃ addrData ∈ decode addr, ∃ b ∈ payloadOf addrData, b < 0x80) := by
  refine ⟨decode_encode, fun _ _ => encode_of_decode, fun _ ht _ => decodeAddr_encodeAddr ht, ?_⟩
  intro addr tag data h
  obtain ⟨buf, read, ha, hde, hr, rfl⟩ := decodeAddr_eq_some h
  obtain ⟨-, hk⟩ := Wire.take_eq_writeVarint_iff (by decide) hr
  simp only [hde, Option.mem_some_iff, exists_eq_left', payloadOf_append, ← hk]
  constructor
  · intro hba
    have hd := congrArg decode (hba.trans ha)
    rw [encodeAddr, decode_encode, decode_encode, Option.some.injEq] at hd
    have hb := congrArg payloadOf hd
    rw [payloadOf_append, payloadOf_append] at hb
    exact (append_cancel_right (hb.trans (take_append_drop read buf).symm)).symm
  · intro ht
    rw [encodeAddr, ← ht, take_append_drop, ha]

/-- The payload `80` is read as the tag 0, which is written as `00`. -/
theorem cut_tag_has_two_texts :
    let checksum : Blob → BitVec 32 := fun _ => 0
    let addr := encode ([0x80] ++ bytesOf 4 (checksum [0x80]))
    decodeAddr checksum addr = some (0, []) ∧ encodeAddr checksum 0 [] ≠ addr := by
  decide +kernel

end Gyro.Base58
