import Gyro.Wire

/-!
# One encoding

Parsing transactions and blocks (`cryptonote_format_utils.cpp`). `read_varint` takes the
end of the input for the end of a number, so a truncated blob may be accepted.
-/

namespace Gyro.Wire

open WireFormat

def isCoinbase : List TxIn → Bool
  | [.gen _] => true
  | _ => false

/-- What it fills in is not serialized; the call throws where `isPoint` fails. -/
def expandTransaction1 (isPoint : BitVec 256 → Bool) (tx : Transaction) : Bool :=
  let rv := tx.sig.rctSignatures
  if tx.pre.version ≥ 2 ∧ ¬isCoinbase tx.pre.vin then
    if rv.base.type = rctTypeNull then true
    else if rv.base.outPk.length ≠ tx.pre.vout.length then false
    else if ¬tx.pre.vout.all (fun o => match o.target with | .toKey _ => true | _ => false) then false
    else if isRctBulletproof rv.base.type then
      match rv.p.bulletproofs with
      | [proof] =>
        if proof.L.length < 6 then false
        else if 2 ^ (proof.L.length - 6) < tx.pre.vout.length then false
        else rv.base.outPk.all isPoint
      | _ => false
    else true
  else true

def parseAndValidateTxFromBlob (isPoint : BitVec 256 → Bool) (blob : Blob) : Option Transaction :=
  (transaction.parse blob).filter (expandTransaction1 isPoint)

/-- A transaction whose inputs need no signatures is written like one with an empty list for each.
-/
def Transaction.fillSignatures (tx : Transaction) : Transaction :=
  if tx.pre.version = 1 ∧ tx.sig.signatures = [] then
    { tx with sig := { tx.sig with signatures := tx.pre.vin.map fun _ => [] } }
  else tx

def txToBlob (tx : Transaction) : Option Blob := transaction.write tx.fillSignatures

def parseAndValidateBlockFromBlob (blob : Blob) : Option Block := block.parse blob

def Block.fillSignatures (b : Block) : Block := { b with spinnerTx := b.spinnerTx.fillSignatures }

def blockToBlob (b : Block) : Option Blob := block.write b.fillSignatures

section
variable {isPoint : BitVec 256 → Bool} {blob blob' : Blob} {tx : Transaction} {b : Block}

theorem Transaction.fillSignatures_eq (h : tx.pre.version = 1 → tx.sig.signatures.length = tx.pre.vin.length) :
    tx.fillSignatures = tx := by
  unfold fillSignatures
  split
  · rename_i hem
    have hv : tx.pre.vin = [] := by
      rw [← List.length_eq_zero_iff, ← h hem.1, hem.2]
      rfl
    have hs : (tx.pre.vin.map fun _ => []) = tx.sig.signatures := by rw [hv, hem.2]; rfl
    rw [hs]
  · rfl

theorem length_signatures (h : transaction.write tx = some blob) (hv : tx.pre.version = 1) :
    tx.sig.signatures.length = tx.pre.vin.length := by
  obtain ⟨_, sigs, -, hs, -⟩ :=
    write_sigma (show (transactionPrefix.sigma signatures).write (tx.pre, tx.sig) = some blob from h)
  rw [signatures, if_pos hv] at hs
  obtain ⟨_, _, ha, -, -⟩ := write_sigma
    (show ((each (tx.pre.vin.map fun i => many (getSignatureSize i) signature)).pair (const RctSig.null)).write
      (tx.sig.signatures, tx.sig.rctSignatures) = some sigs from hs)
  rw [length_of_each ha, List.length_map]

theorem fillSignatures_of_write (h : transaction.write tx = some blob) : tx.fillSignatures = tx :=
  Transaction.fillSignatures_eq (length_signatures h)

theorem Block.fillSignatures_of_write (h : block.write b = some blob) : b.fillSignatures = b := by
  have hf : blockFields.write b = some blob := write_guard h
  obtain ⟨_, rest, -, hr, -⟩ := write_sigma
    (show (blockHeader.pair (transaction.pair keys)).write (b.header, b.spinnerTx, b.txHashes) = some blob from hf)
  obtain ⟨_, _, ht, -, -⟩ :=
    write_sigma (show (transaction.pair keys).write (b.spinnerTx, b.txHashes) = some rest from hr)
  rw [Block.fillSignatures, Wire.fillSignatures_of_write ht]

theorem parse_of_validated (h : parseAndValidateTxFromBlob isPoint blob = some tx) :
    transaction.parse blob = some tx ∧ expandTransaction1 isPoint tx = true :=
  Option.filter_eq_some_iff.mp h

theorem write_of_parse {α : Type} {f : WireFormat α} {a : α} (h : f.parse blob = some a) : ∃ x, f.write a = some x := by
  obtain ⟨cut, hr⟩ := read_of_parse h
  obtain ⟨x, hx, -⟩ := f.write_read hr
  exact ⟨x, hx⟩

theorem txToBlob_iff (h : transaction.parse blob = some tx) : txToBlob tx = some blob ↔ transaction.NumbersEnd blob := by
  obtain ⟨x, hx⟩ := write_of_parse h
  rw [txToBlob, fillSignatures_of_write hx]
  exact write_iff_of_parse h

theorem blockToBlob_iff (h : block.parse blob = some b) : blockToBlob b = some blob ↔ block.NumbersEnd blob := by
  obtain ⟨x, hx⟩ := write_of_parse h
  rw [blockToBlob, Block.fillSignatures_of_write hx]
  exact write_iff_of_parse h

theorem eq_of_parse_eq (h : parseAndValidateTxFromBlob isPoint blob = some tx)
    (h' : parseAndValidateTxFromBlob isPoint blob' = some tx) (hn : transaction.NumbersEnd blob)
    (he' : transaction.NumbersEnd blob') : blob = blob' := by
  have hr := (txToBlob_iff (parse_of_validated h).1).mpr hn
  have hw' := (txToBlob_iff (parse_of_validated h').1).mpr he'
  exact Option.some.inj (hr.symm.trans hw')

end

def blockWithoutEnd : Blob := [1, 1, 0] ++ List.replicate 36 0 ++ [1, 60, 1, 0xff, 0, 0, 0]

def writeVarint (bits v : Nat) : Blob := writeNumber bits v

/-- The number and how many bytes it took; `none` for the two negative results of `read_varint`. -/
def readVarint (bits : Nat) (bytes : Blob) : Option (Nat × Nat) :=
  (readNumber bits 0 0 bytes).map fun p => (p.1, bytes.length - p.2.1.length)

section
variable {bits v : Nat}

theorem readNumber_writeVarint (hb : 0 < bits) (hv : v < 2 ^ bits) (rest : Blob) :
    readNumber bits 0 0 (writeVarint bits v ++ rest) = some (v, rest, false) := by
  have hr := (number bits hb).read_write (if_pos hv) rest false
  obtain ⟨⟨w, left, cut⟩, hp, heq⟩ := Option.map_eq_some_iff.mp hr
  obtain ⟨rfl, rfl, rfl⟩ : w = v ∧ left = rest ∧ cut = false := by simpa using heq
  exact hp

theorem read_writeVarint (hb : 0 < bits) (hv : v < 2 ^ bits) (rest : Blob) :
    readVarint bits (writeVarint bits v ++ rest) = some (v, (writeVarint bits v).length) := by
  rw [readVarint, readNumber_writeVarint hb hv]
  simp

theorem take_eq_writeVarint_iff {bytes : Blob} {n : Nat} (hbi : 0 < bits) (h : readVarint bits bytes = some (v, n)) :
    v < 2 ^ bits ∧ (bytes.take n = writeVarint bits v ↔ ∃ b ∈ bytes, b < 0x80) := by
  obtain ⟨⟨w, rest, cut⟩, hr, heq⟩ := Option.map_eq_some_iff.mp h
  cases heq
  obtain ⟨i, hi, hw, hd⟩ := @writeNumber_of_readNumber bits bits 0 0 w rest _ cut hbi (by omega) hr
  obtain rfl : w = i := by simpa using hw
  refine ⟨hi, fun ht => ?_, fun hn => ?_⟩
  · have ha := readNumber_writeVarint hbi hi []
    rw [List.append_nil, ← ht] at ha
    obtain ⟨b, hb, hl⟩ := (readNumber_cut ha).1.mp rfl
    exact ⟨b, List.mem_of_mem_take hb, hl⟩
  · have hy : bytes = writeVarint bits w ++ rest := (hd ((readNumber_cut hr).1.mpr hn)).1
    rw [hy]
    simp

end

/-- A number is read as it is written, and the bytes it is read from are those it is written as exactly
if one of them is below 0x80, for the end of the input counts as the end of the number. -/
theorem varint_one_encoding_iff (bits : Nat) (hbits : 0 < bits) :
    (∀ v < 2 ^ bits, ∀ rest, readVarint bits (writeVarint bits v ++ rest) = some (v, (writeVarint bits v).length)) ∧
    ∀ bytes v n, readVarint bits bytes = some (v, n) →
      v < 2 ^ bits ∧ (bytes.take n = writeVarint bits v ↔ ∃ b ∈ bytes, b < 0x80) :=
  ⟨fun _ hv => read_writeVarint hbits hv, fun _ _ _ => take_eq_writeVarint_iff hbits⟩

theorem varint_one_encoding_word :
    readVarint 64 [0x80, 0x01, 0x07] = some (128, 2) ∧ writeVarint 64 128 = [0x80, 0x01] :=
  ⟨rfl, (((varint_one_encoding_iff 64 (by decide)).2 [0x80, 0x01, 0x07] 128 2 rfl).2.mpr ⟨0x01, by simp, by decide⟩).symm⟩

/-- The first half of a number is taken for another one. -/
theorem varint_without_end : readVarint 64 [0x80] = some (0, 1) ∧ writeVarint 64 0 = [0] := ⟨rfl, rfl⟩

end Gyro.Wire
