import Gyro.Archive

/-!
# The transaction extra as bytes

`tx_extra.h` and the functions around it. The extra is a sequence of tagged fields;
a search stops at the first field that cannot be read.
-/

namespace Gyro

inductive ExtraField where
  | padding (size : Nat)
  | pubKey (key : PublicKey)
  | nonce (nonce : Blob)
  | mergeSpinningTag (depth : UInt64) (merkleRoot : Hash)
  | additionalPubKeys (data : List PublicKey)
  | spinTxProof (data : Blob)
  | spinData (data : Blob)
  | spinSig (data : Signature)
  | chainId (id : Hash)
  | sms (layer : UInt8) (data : Blob)
  | mysteriousSpinnergate (data : Blob)
  deriving DecidableEq

def txExtraPaddingMaxCount : Nat := 255
def txExtraNonceMaxCount : Nat := 255

def readByte : Reader UInt8
  | [] => none
  | b :: rest => some (b, rest)

def readString : Reader Blob := do
  let size ← readVarint
  let rest ← get
  if rest.length < size.toNat then failure
  readBlob size.toNat

/-- The padding goes on to the end of the extra. The tag counts as one of its zeros. -/
def readPadding : Reader ExtraField := fun bytes =>
  if bytes.length < txExtraPaddingMaxCount ∧ bytes.all (· = 0) then some (.padding (bytes.length + 1), []) else none

def readNonce : Reader ExtraField := do
  let nonce ← readString
  if txExtraNonceMaxCount < nonce.length then failure
  return .nonce nonce

def readMergeSpinningTag : Reader ExtraField := do
  let field ← readString
  match parseBinary (do return .mergeSpinningTag (← readVarint) (← readKey)) field with
  | some tag => return tag
  | none => failure

def readSms : Reader ExtraField := do
  let layer ← readByte
  let data ← readString
  return .sms layer data

def readTagged (tag : UInt8) : Reader ExtraField :=
  match tag with
  | 0x00 => readPadding
  | 0x01 => ExtraField.pubKey <$> readKey
  | 0x02 => readNonce
  | 0x03 => readMergeSpinningTag
  | 0x04 => ExtraField.additionalPubKeys <$> readVector readKey
  | 0x05 => ExtraField.chainId <$> readKey
  | 0x06 => ExtraField.spinTxProof <$> readString
  | 0x07 => ExtraField.spinData <$> readString
  | 0x08 => ExtraField.spinSig <$> readSignature
  | 0x09 => readSms
  | 0xde => ExtraField.mysteriousSpinnergate <$> readString
  | _ => failure

def readExtraField : Reader ExtraField := do
  let tag ← readByte
  readTagged tag

/-- Whether all could be read, and the fields that were. A field takes a byte at least. -/
def parseExtraFrom : Nat → Blob → Bool × List ExtraField
  | 0, _ => (true, [])
  | fuel + 1, bytes =>
    match readExtraField bytes with
    | none => (false, [])
    | some (field, []) => (true, [field])
    | some (field, rest) =>
      let (r, fields) := parseExtraFrom fuel rest
      (r, field :: fields)

def parseTxExtra (txExtra : Blob) : Bool × List ExtraField :=
  if txExtra = [] then (true, []) else parseExtraFrom txExtra.length txExtra

def ExtraField.sms? : ExtraField → Option (UInt8 × Blob)
  | .sms layer data => some (layer, data)
  | _ => none

/-- `get_sms_from_extra`, which does not ask whether the extra could be read to its end. -/
def getSmsFromExtra (txExtra : Blob) : Option (UInt8 × Blob) := (parseTxExtra txExtra).2.findSome? ExtraField.sms?

def writeString (data : Blob) : Blob := writeVarint (UInt64.ofNat data.length) ++ data

def setSmsToExtra (txExtra : Blob) (layer : UInt8) (data : Blob) : Blob :=
  txExtra ++ 0x09 :: layer :: writeString data

/-! ## Finding a message -/

/-- The bytes are these fields, each of which says where it ends. -/
inductive WholeFields : Blob → List ExtraField → Prop where
  | nil : WholeFields [] []
  | cons {field : ExtraField} {bytes : Blob} {fields : List ExtraField} (b : UInt8) (bs : Blob) :
      (∀ rest, readExtraField (b :: bs ++ rest) = some (field, rest)) → WholeFields bytes fields →
        WholeFields (b :: bs ++ bytes) (field :: fields)

variable {data rest bytes : Blob} {layer : UInt8} {fields : List ExtraField} {fuel : Nat}

theorem readString_writeString (hs : data.length < 2 ^ 64) :
    readString (writeString data ++ rest) = some (data, rest) := by
  have hlen : (UInt64.ofNat data.length).toNat = data.length := UInt64.toNat_ofNat_of_lt' hs
  have hr := readVarint_writeVarint (UInt64.ofNat data.length) (data ++ rest)
  simp [readString, writeString, List.append_assoc, hr, hlen, readBlob]

theorem readExtraField_sms (hs : data.length < 2 ^ 64) :
    readExtraField (0x09 :: layer :: writeString data ++ rest) = some (.sms layer data, rest) := by
  simp [readExtraField, readTagged, readSms, readByte, readString_writeString hs]

theorem readExtraField_pubKey {key : Blob} (hk : key.length = 32) :
    readExtraField (0x01 :: key ++ rest) = some (.pubKey (ofBytes 256 key), rest) := by
  simp [readExtraField, readTagged, readByte, readKey, readBlob, ← hk]

theorem parseExtraFrom_append (hh : WholeFields bytes fields) (hr : rest ≠ [])
    (hf : (bytes ++ rest).length ≤ fuel) : ∃ fuel', rest.length ≤ fuel' ∧
      (parseExtraFrom fuel (bytes ++ rest)).2 = fields ++ (parseExtraFrom fuel' rest).2 := by
  induction hh generalizing fuel with
  | nil => exact ⟨fuel, hf, rfl⟩
  | @cons field bytes fields b bs hre hh ih =>
    cases fuel with
    | zero => simp at hf
    | succ fuel =>
      have hlen : (bytes ++ rest).length ≤ fuel := by
        simp only [List.cons_append, List.length_cons, List.length_append] at hf ⊢
        omega
      obtain ⟨fuel', hle, hp⟩ := ih hlen
      refine ⟨fuel', hle, ?_⟩
      have ho : bytes ++ rest ≠ [] := by simp [hr]
      rw [List.append_assoc, parseExtraFrom, hre]
      cases hn : bytes ++ rest with
      | nil => exact absurd hn ho
      | cons c cs =>
        rw [hn] at hp
        simp [hp]

theorem getSmsFromExtra_setSmsToExtra {pre post : Blob} (hh : WholeFields pre fields)
    (ho : ∀ field ∈ fields, field.sms? = none) (hs : data.length < 2 ^ 64) :
    getSmsFromExtra (setSmsToExtra pre layer data ++ post) = some (layer, data) := by
  have ha : setSmsToExtra pre layer data ++ post = pre ++ (0x09 :: layer :: writeString data ++ post) := by
    simp [setSmsToExtra]
  have hr : 0x09 :: layer :: writeString data ++ post ≠ [] := by simp
  obtain ⟨fuel', hle, hp⟩ := parseExtraFrom_append hh hr le_rfl
  cases fuel' with
  | zero => simp at hle
  | succ fuel' =>
    have hf : (parseExtraFrom (fuel' + 1) (0x09 :: layer :: writeString data ++ post)).2.findSome? ExtraField.sms? =
        some (layer, data) := by
      rw [parseExtraFrom, readExtraField_sms hs]
      cases post <;> simp [List.findSome?_cons, ExtraField.sms?]
    have hn : fields.findSome? ExtraField.sms? = none := List.findSome?_eq_none_iff.mpr ho
    rw [getSmsFromExtra, ha, parseTxExtra, if_neg (by simp), hp, List.findSome?_append, hf, hn]
    rfl

end Gyro
