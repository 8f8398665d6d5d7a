import Gyro.Types
import Mathlib

/-!
# Base58

`tools::base58` (`common/base58.cpp`): eight bytes become eleven digits, and a
shorter block at the end fewer. Decoding inverts encoding.
-/

namespace Gyro.Base58

open List

def alphabet : Blob :=
  "123456789ABCDEFGHJKLMNPQRSTUVWXYZabcdefghijkmnopqrstuvwxyz".toList.map fun c => UInt8.ofNat c.toNat

def alphabetSize : Nat := 58

def fullBlockSize : Nat := 8
def fullEncodedBlockSize : Nat := 11

def encodedBlockSize : Nat → Nat
  | 0 => 0
  | 1 => 2
  | 2 => 3
  | 3 => 5
  | 4 => 6
  | 5 => 7
  | 6 => 9
  | 7 => 10
  | _ => 11

def decodedBlockSize (encoded : Nat) : Option Nat :=
  (List.range (fullBlockSize + 1)).find? fun size => encodedBlockSize size = encoded

def reverseAlphabet (letter : UInt8) : Option Nat := alphabet.idxOf? letter

def ofBigEndian (block : Blob) : Nat := Nat.ofDigits 256 (block.reverse.map UInt8.toNat)

def toBigEndian (num size : Nat) : Blob := (Nat.digitsAppend 256 size num).reverse.map UInt8.ofNat

def letter (digit : Nat) : UInt8 := alphabet.getD digit 0

/-- `encode_block`: the digits of the number, behind letters that stand for zero. -/
def encodeBlock (block : Blob) : Blob :=
  (Nat.digitsAppend alphabetSize (encodedBlockSize block.length) (ofBigEndian block)).reverse.map letter

def decodeLetters : Blob → Nat → Nat → Option Nat
  | [], resNum, _ => some resNum
  | letter :: rest, resNum, order =>
    match reverseAlphabet letter with
    | none => none
    | some digit =>
      if 2 ^ 64 ≤ order * digit ∨ 2 ^ 64 ≤ resNum + order * digit then none
      else decodeLetters rest (resNum + order * digit) (order * alphabetSize % 2 ^ 64)

def decodeBlock (block : Blob) : Option Blob :=
  match decodedBlockSize block.length with
  | none | some 0 => none
  | some resSize =>
    match decodeLetters block.reverse 0 1 with
    | none => none
    | some resNum =>
      if resSize < fullBlockSize ∧ 2 ^ (8 * resSize) ≤ resNum then none else some (toBigEndian resNum resSize)

def encodeBlocks : Nat → Blob → Blob
  | 0, data => if data = [] then [] else encodeBlock data
  | count + 1, data => encodeBlock (data.take fullBlockSize) ++ encodeBlocks count (data.drop fullBlockSize)

def encode (data : Blob) : Blob := encodeBlocks (data.length / fullBlockSize) data

def decodeBlocks : Nat → Blob → Option Blob
  | 0, enc => if enc = [] then some [] else decodeBlock enc
  | count + 1, enc => do
    let block ← decodeBlock (enc.take fullEncodedBlockSize)
    let rest ← decodeBlocks count (enc.drop fullEncodedBlockSize)
    return block ++ rest

def decode (enc : Blob) : Option Blob :=
  if (decodedBlockSize (enc.length % fullEncodedBlockSize)).isNone then none
  else decodeBlocks (enc.length / fullEncodedBlockSize) enc

variable {block data : Blob} {size num : Nat}

theorem reverseAlphabet_letter {digit : Nat} (h : digit < 58) : reverseAlphabet (letter digit) = some digit := by
  have ha : ∀ d < 58, reverseAlphabet (letter d) = some d := by decide +kernel
  exact ha digit h

theorem decodedBlockSize_encodedBlockSize (h : size ≤ 8) : decodedBlockSize (encodedBlockSize size) = some size := by
  have ha : ∀ s < 9, decodedBlockSize (encodedBlockSize s) = some s := by decide +kernel
  exact ha size (by omega)

theorem encodedBlockSize_lt (h : size < 8) : encodedBlockSize size < 11 := by
  have ha : ∀ s < 8, encodedBlockSize s < 11 := by decide +kernel
  exact ha size h

theorem encodedBlockSize_le (h : size ≤ 8) : encodedBlockSize size - 1 ≤ 10 := by
  have ha : ∀ s < 9, encodedBlockSize s - 1 ≤ 10 := by decide +kernel
  exact ha size (by omega)

theorem pow_le_encoded (h : size ≤ 8) : 256 ^ size ≤ 58 ^ encodedBlockSize size := by
  have ha : ∀ s < 9, 256 ^ s ≤ 58 ^ encodedBlockSize s := by decide +kernel
  exact ha size (by omega)

theorem bigEndian_digit_lt : ∀ d ∈ block.reverse.map UInt8.toNat, d < 256 := by
  intro d hd
  obtain ⟨b, -, rfl⟩ := mem_map.mp hd
  exact b.toNat_lt

theorem ofBigEndian_lt (block : Blob) : ofBigEndian block < 256 ^ block.length := by
  have hl := Nat.ofDigits_lt_base_pow_length (b := 256) (by decide) (@bigEndian_digit_lt block)
  rwa [length_map, length_reverse] at hl

theorem toBigEndian_ofBigEndian (block : Blob) : toBigEndian (ofBigEndian block) block.length = block := by
  have hinv := (Nat.setInvOn_digitsAppend_ofDigits (b := 256) (by decide) block.length).1
  have hd := hinv (show block.reverse.map UInt8.toNat ∈ _ from ⟨by simp, bigEndian_digit_lt⟩)
  rw [toBigEndian, ofBigEndian, hd, ← map_reverse, reverse_reverse, map_map]
  exact (map_congr_left fun b _ => UInt8.ofNat_toNat).trans (map_id block)

theorem order_step {order n : Nat} (h : order * 58 ^ (n + 1) < 2 ^ 64) :
    order * alphabetSize % 2 ^ 64 = order * 58 ∧ order * 58 * 58 ^ n < 2 ^ 64 := by
  rw [Nat.pow_succ', ← Nat.mul_assoc] at h
  exact ⟨Nat.mod_eq_of_lt (lt_of_le_of_lt (Nat.le_mul_of_pos_right _ (Nat.pow_pos (by decide))) h), h⟩

theorem decodeLetters_letters {digits : List Nat} (hi : ∀ d ∈ digits, d < 58) {resNum order : Nat}
    (hn : resNum + order * Nat.ofDigits 58 digits < 2 ^ 64) (ho : order * 58 ^ (digits.length - 1) < 2 ^ 64) :
    decodeLetters (digits.map letter) resNum order = some (resNum + order * Nat.ofDigits 58 digits) := by
  induction digits generalizing resNum order with
  | nil => simp [decodeLetters]
  | cons d rest ih =>
    obtain ⟨hd, hr⟩ := forall_mem_cons.mp hi
    have hs : resNum + order * Nat.ofDigits 58 (d :: rest) =
        resNum + order * d + order * 58 * Nat.ofDigits 58 rest := by
      rw [Nat.ofDigits_cons]
      ring
    rw [hs] at hn ⊢
    rw [map_cons, decodeLetters, reverseAlphabet_letter hd]
    have hf : ¬(2 ^ 64 ≤ order * d ∨ 2 ^ 64 ≤ resNum + order * d) := by omega
    simp only [if_neg hf]
    cases rest with
    | nil => simp [decodeLetters]
    | cons d' rest =>
      obtain ⟨ht, hp⟩ := order_step ho
      rw [ht]
      exact ih hr hn (by simpa using hp)

theorem encodeBlock_digits (hs : block.length ≤ 8) :
    let digits := Nat.digitsAppend 58 (encodedBlockSize block.length) (ofBigEndian block)
    digits.length = encodedBlockSize block.length ∧ (∀ d ∈ digits, d < 58) ∧
      Nat.ofDigits 58 digits = ofBigEndian block := by
  have hl : ofBigEndian block < 58 ^ encodedBlockSize block.length :=
    lt_of_lt_of_le (ofBigEndian_lt block) (pow_le_encoded hs)
  refine ⟨Nat.length_digitsAppend (by decide) _ hl, fun d hd => Nat.lt_of_mem_digitsAppend (by decide) _ d hd, ?_⟩
  rw [Nat.digitsAppend, Nat.ofDigits_append_replicate_zero, Nat.ofDigits_digits]

theorem length_encodeBlock (hs : block.length ≤ 8) : (encodeBlock block).length = encodedBlockSize block.length := by
  rw [encodeBlock, length_map, length_reverse]
  exact (encodeBlock_digits hs).1

theorem decodeBlock_encodeBlock (hp : block ≠ []) (hs : block.length ≤ 8) :
    decodeBlock (encodeBlock block) = some block := by
  obtain ⟨hl, hd, hv⟩ := encodeBlock_digits hs
  have hu : ofBigEndian block < 2 ^ (8 * block.length) := by
    rw [Nat.pow_mul]
    exact ofBigEndian_lt block
  have ho : ofBigEndian block < 2 ^ 64 := lt_of_lt_of_le hu (Nat.pow_le_pow_right (by decide) (by omega))
  have ht : decodeLetters (encodeBlock block).reverse 0 1 = some (ofBigEndian block) := by
    have hpo : 58 ^ (encodedBlockSize block.length - 1) < 2 ^ 64 :=
      lt_of_le_of_lt (Nat.pow_le_pow_right (by decide) (encodedBlockSize_le hs)) (by decide)
    have hlo := @decodeLetters_letters _ hd 0 1 (by simpa [hv] using ho) (by simpa [hl] using hpo)
    rw [encodeBlock, alphabetSize]
    simpa [hv] using hlo
  obtain ⟨n, hn⟩ : ∃ n, block.length = n + 1 := Nat.exists_eq_succ_of_ne_zero (mt length_eq_zero_iff.mp hp)
  have hz : decodedBlockSize (encodeBlock block).length = some (n + 1) := by
    rw [length_encodeBlock hs, decodedBlockSize_encodedBlockSize hs, hn]
  simp only [decodeBlock, hz, ht]
  rw [← hn, if_neg (fun h => absurd h.2 (by omega)), toBigEndian_ofBigEndian]

theorem letter_of_reverseAlphabet {b : UInt8} {digit : Nat} (h : reverseAlphabet b = some digit) :
    digit < 58 ∧ b = letter digit := by
  have ha : ∀ n < 256, ∀ d ∈ reverseAlphabet (UInt8.ofNat n), d < 58 ∧ UInt8.ofNat n = letter d := by
    decide +kernel
  simpa using ha b.toNat b.toNat_lt digit (by simpa using h)

theorem digits_of_decodeLetters {letters : Blob} {resNum order num : Nat}
    (ho : order * 58 ^ (letters.length - 1) < 2 ^ 64) (hr : resNum < 2 ^ 64)
    (h : decodeLetters letters resNum order = some num) :
    num < 2 ^ 64 ∧ ∃ digits, (∀ d ∈ digits, d < 58) ∧ letters = digits.map letter ∧
      num = resNum + order * Nat.ofDigits 58 digits := by
  induction letters generalizing resNum order with
  | nil =>
    cases h
    exact ⟨hr, [], by simp, rfl, by simp⟩
  | cons b rest ih =>
    rw [decodeLetters] at h
    split at h
    · cases h
    · rename_i digit hd
      obtain ⟨hl, rfl⟩ := letter_of_reverseAlphabet hd
      split at h
      · cases h
      · cases rest with
        | nil =>
          cases h
          exact ⟨by omega, [digit], by simpa using hl, rfl, by simp⟩
        | cons b' rest =>
          obtain ⟨hs, hp⟩ := order_step ho
          rw [hs] at h
          obtain ⟨hn, digits, hi, ht, rfl⟩ := ih (by simpa using hp) (by omega) h
          refine ⟨hn, digit :: digits, forall_mem_cons.mpr ⟨hl, hi⟩, by simp [ht], ?_⟩
          rw [Nat.ofDigits_cons]
          ring

theorem ofBigEndian_toBigEndian (h : num < 256 ^ size) :
    ofBigEndian (toBigEndian num size) = num ∧ (toBigEndian num size).length = size := by
  have hi : (Nat.digitsAppend 256 size num).map (UInt8.toNat ∘ UInt8.ofNat) = Nat.digitsAppend 256 size num := by
    apply (map_congr_left fun d hd => ?_).trans (map_id _)
    exact UInt8.toNat_ofNat_of_lt' (Nat.lt_of_mem_digitsAppend (by decide) _ d hd)
  rw [ofBigEndian, toBigEndian, length_map, length_reverse, ← map_reverse, reverse_reverse, map_map, hi]
  refine ⟨?_, Nat.length_digitsAppend (by decide) _ h⟩
  rw [Nat.digitsAppend, Nat.ofDigits_append_replicate_zero, Nat.ofDigits_digits]

theorem encodedBlockSize_decodedBlockSize {n : Nat} (h : decodedBlockSize n = some size) :
    encodedBlockSize size = n ∧ size ≤ 8 := by
  have hme := mem_range.mp (mem_of_find?_eq_some h)
  rw [fullBlockSize] at hme
  exact ⟨by simpa using find?_some h, by omega⟩

theorem encodeBlock_of_decodeBlock {enc : Blob} (h : decodeBlock enc = some block) :
    encodeBlock block = enc ∧ block ≠ [] ∧ decodedBlockSize enc.length = some block.length := by
  rw [decodeBlock] at h
  split at h
  · cases h
  · cases h
  · rename_i resSize hp hs
    obtain ⟨hlen, hle⟩ := encodedBlockSize_decodedBlockSize hs
    split at h
    · cases h
    · rename_i resNum ht
      split at h
      · cases h
      · rename_i hf
        cases h
        have hsm : enc.reverse.length - 1 ≤ 10 := by
          rw [length_reverse, ← hlen]
          exact encodedBlockSize_le hle
        have ho : 1 * 58 ^ (enc.reverse.length - 1) < 2 ^ 64 :=
          (Nat.one_mul _).trans_lt (lt_of_le_of_lt (Nat.pow_le_pow_right (by decide) hsm) (by decide))
        obtain ⟨hwo, digits, hd, hen, hu⟩ := digits_of_decodeLetters ho (by decide) ht
        have hl : resNum < 256 ^ resSize := by
          rcases hle.lt_or_eq with hl | rfl
          · rw [show 256 = 2 ^ 8 from rfl, ← Nat.pow_mul]
            exact not_le.mp fun hg => hf ⟨hl, hg⟩
          · exact hwo
        obtain ⟨hv, hn⟩ := ofBigEndian_toBigEndian hl
        have hc : digits.length = encodedBlockSize resSize := by
          rw [hlen, ← length_map letter, ← hen, length_reverse]
        have hb : Nat.digitsAppend 58 (encodedBlockSize resSize) resNum = digits := by
          rw [hu, Nat.zero_add, Nat.one_mul, ← hc]
          exact (Nat.setInvOn_digitsAppend_ofDigits (by decide) digits.length).1 ⟨rfl, hd⟩
        refine ⟨?_, fun hi => hp ?_, by rw [hs, hn]⟩
        · rw [encodeBlock, hv, hn, alphabetSize, hb, map_reverse, ← hen, reverse_reverse]
        · rw [← hn, hi, length_nil]

/-! ## Whole texts -/

theorem length_encodeBlocks {count : Nat} (hl : data.length / 8 = count) :
    (encodeBlocks count data).length = 11 * count + encodedBlockSize (data.length % 8) := by
  induction count generalizing data with
  | zero =>
    have hs : data.length < 8 := by omega
    rw [encodeBlocks, Nat.mod_eq_of_lt hs]
    split
    · rename_i hn
      rw [hn]
      rfl
    · rw [length_encodeBlock hs.le]
      omega
  | succ count ih =>
    have ht : (data.take fullBlockSize).length = 8 := by
      rw [length_take, fullBlockSize]
      omega
    have hd : (data.drop fullBlockSize).length = data.length - 8 := length_drop
    have hr : (data.drop fullBlockSize).length / 8 = count := by omega
    have ho : (data.length - 8) % 8 = data.length % 8 := by omega
    rw [encodeBlocks, length_append, length_encodeBlock ht.le, ht, ih hr, hd, ho]
    simp only [encodedBlockSize]
    omega

theorem decodeBlocks_encodeBlocks {count : Nat} (hl : data.length / 8 = count) :
    decodeBlocks count (encodeBlocks count data) = some data := by
  induction count generalizing data with
  | zero =>
    rw [encodeBlocks, decodeBlocks]
    by_cases hn : data = []
    · simp [hn]
    · have hd := decodeBlock_encodeBlock hn (show data.length ≤ 8 by omega)
      have hne : encodeBlock data ≠ [] := by
        intro hem
        rw [hem] at hd
        cases hd
      rw [if_neg hn, if_neg hne, hd]
  | succ count ih =>
    have ht : (data.take fullBlockSize).length = 8 := by
      rw [length_take, fullBlockSize]
      omega
    have hr : (data.drop fullBlockSize).length / 8 = count := by
      rw [length_drop, fullBlockSize]
      omega
    have hf : (encodeBlock (data.take fullBlockSize)).length = fullEncodedBlockSize := by
      rw [length_encodeBlock ht.le, ht]
      rfl
    have hne : data.take fullBlockSize ≠ [] := by
      intro hn
      rw [hn] at ht
      cases ht
    rw [encodeBlocks, decodeBlocks, take_left' hf, drop_left' hf,
      decodeBlock_encodeBlock hne ht.le, ih hr]
    simp

theorem length_encode (data : Blob) :
    (encode data).length = 11 * (data.length / 8) + encodedBlockSize (data.length % 8) :=
  length_encodeBlocks rfl

theorem decode_encode (data : Blob) : decode (encode data) = some data := by
  have hl : encodedBlockSize (data.length % 8) < 11 := encodedBlockSize_lt (by omega)
  have ho : (encode data).length % 11 = encodedBlockSize (data.length % 8) := by
    rw [length_encode, Nat.mul_add_mod, Nat.mod_eq_of_lt hl]
  have hdiv : (encode data).length / 11 = data.length / 8 := by
    rw [length_encode, Nat.mul_add_div (by decide), Nat.div_eq_of_lt hl, Nat.add_zero]
  rw [decode, fullEncodedBlockSize, ho, hdiv, decodedBlockSize_encodedBlockSize (by omega)]
  exact decodeBlocks_encodeBlocks rfl

theorem encodeBlocks_of_decodeBlocks {count : Nat} {enc : Blob} (hln : enc.length / 11 = count)
    (h : decodeBlocks count enc = some data) : encodeBlocks (data.length / 8) data = enc := by
  induction count generalizing enc data with
  | zero =>
    rw [decodeBlocks] at h
    split at h
    · cases h
      simp_all [encodeBlocks]
    · obtain ⟨hn, hne, hs⟩ := encodeBlock_of_decodeBlock h
      obtain ⟨hlen, hle⟩ := encodedBlockSize_decodedBlockSize hs
      have hl : data.length < 8 := by
        refine lt_of_le_of_ne hle fun hf => ?_
        have hf' : encodedBlockSize 8 = 11 := rfl
        rw [hf] at hlen
        omega
      rw [Nat.div_eq_of_lt hl, encodeBlocks, if_neg hne, hn]
  | succ count ih =>
    obtain ⟨block, hb, h⟩ := Option.bind_eq_some_iff.mp h
    obtain ⟨rest, hr, h⟩ := Option.bind_eq_some_iff.mp h
    cases h
    obtain ⟨hn, -, hs⟩ := encodeBlock_of_decodeBlock hb
    have ht : (enc.take fullEncodedBlockSize).length = 11 := by
      rw [length_take, fullEncodedBlockSize]
      omega
    have height : block.length = fullBlockSize := by
      rw [ht] at hs
      exact (Option.some.inj hs).symm
    have hd : (enc.drop fullEncodedBlockSize).length / 11 = count := by
      rw [length_drop, fullEncodedBlockSize]
      omega
    have hc : (block ++ rest).length / 8 = rest.length / 8 + 1 := by
      rw [length_append, height, fullBlockSize]
      omega
    rw [hc, encodeBlocks, take_left' height, drop_left' height, ih hd hr, hn, take_append_drop]

theorem encode_of_decode {enc : Blob} (h : decode enc = some data) : encode data = enc := by
  rw [decode] at h
  split at h
  · cases h
  · exact encodeBlocks_of_decodeBlocks rfl h

end Gyro.Base58
