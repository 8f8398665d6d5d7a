import Gyro.Archive
import Gyro.Base58
import Gyro.LockProof
import Gyro.Wallet.Envelope

/-!
# Lock proofs made by the wallet

`wallet2::get_tx_proof` and `decode_tx_proof`: a secret and a signature for each public
key of the transaction, as text without separators.
-/

namespace Gyro.Wallet

open List

structure TxProofCrypto extends ProofCrypto where
  secretKeyToPublicKey : SecretKey → PublicKey
  /-- `none` when the key is no curve point. -/
  scalarmultKey : PublicKey → SecretKey → Option PublicKey
  /-- Of a prefix hash, R, A, B, D, the secret key of R and a random scalar; `none` when a key is no
  point. -/
  generateTxProof : Hash → PublicKey → PublicKey → Option PublicKey → PublicKey → SecretKey → Scalar → Option Signature
  check_generate : ∀ h a key d k sig, scalarmultKey key a = some d →
    generateTxProof h (secretKeyToPublicKey a) key none d a k = some sig →
    checkTxProof h (secretKeyToPublicKey a) key ⟨d, sig⟩ = true

structure ProofWallet where
  address : AccountPublicAddress
  viewSecretKey : SecretKey
  subaddresses : List PublicKey
  main_mem : address.spendPublicKey ∈ subaddresses

inductive TxProofError where
  | invalidKey
  | txPubkeyNotFound
  | keyDerivation
  | outputCheck
  | index (fault : IndexFault)
  | noFundsReceived
  | headerCheck
  | wrongSize
  | decoding
  deriving DecidableEq

def text (s : String) : Blob := s.toList.map fun c => UInt8.ofNat c.toNat

def publicKeySize : Nat := 32
def signatureSize : Nat := 64

section
variable (c : TxProofCrypto) (w : ProofWallet) (txid : Hash) (tx : Transaction) (txKey : SecretKey)
  (additionalTxKeys : List SecretKey) (address : AccountPublicAddress) (isSubaddress : Bool) (message : Blob)
  (rand : Nat → Scalar)

def prefixHash : Hash := cnFastHash (hashBytes txid ++ message)

def outboundPair (r : SecretKey) (k : Scalar) : Option ProofPair := do
  let d ← c.scalarmultKey address.viewPublicKey r
  if isSubaddress then
    let txPubKey ← c.scalarmultKey address.spendPublicKey r
    let sig ← c.generateTxProof (prefixHash txid message) txPubKey address.viewPublicKey address.spendPublicKey d r k
    return ⟨d, sig⟩
  else
    let sig ← c.generateTxProof (prefixHash txid message) (c.secretKeyToPublicKey r) address.viewPublicKey none d r k
    return ⟨d, sig⟩

def inboundPair (txPubKey : PublicKey) (k : Scalar) : Option ProofPair := do
  let d ← c.scalarmultKey txPubKey w.viewSecretKey
  let sig ← c.generateTxProof (prefixHash txid message) address.viewPublicKey txPubKey
    (if isSubaddress then some address.spendPublicKey else none) d w.viewSecretKey k
  return ⟨d, sig⟩

def pairsFrom {α : Type} (prove : α → Scalar → Option ProofPair) : Nat → List α → Option (List ProofPair)
  | _, [] => some []
  | i, key :: keys => do
    let p ← prove key (rand i)
    let ps ← pairsFrom prove (i + 1) keys
    return p :: ps

def isOut : Bool := address.spendPublicKey ∉ w.subaddresses

def proofPairs : Except TxProofError (List ProofPair) :=
  if isOut w address then
    match pairsFrom rand (outboundPair c txid address isSubaddress message) 0 (txKey :: additionalTxKeys) with
    | none => .error .invalidKey
    | some pairs => .ok pairs
  else if tx.txPubKeyFromExtra = nullPkey then .error .txPubkeyNotFound
  else
    match pairsFrom rand (inboundPair c w txid address isSubaddress message) 0
        (tx.txPubKeyFromExtra :: tx.additionalTxPubKeysFromExtra) with
    | none => .error .invalidKey
    | some pairs => .ok pairs

/-- `wallet2::check_tx_key_helper`, which throws where the node's copy returns false. -/
def checkTxKeyHelper (derivation : KeyDerivation) (additional : List KeyDerivation) : Except TxProofError UInt64 :=
  match c.toProofCrypto.checkTxKeyHelper tx (.computed derivation) (additional.map .computed) address.spendPublicKey with
  | .error f => .error (.index f)
  | .ok k => if k.ok then .ok k.received else .error .outputCheck

def received (pairs : List ProofPair) : Except TxProofError UInt64 :=
  match pairs.mapM fun p => c.generateKeyDerivation p.key with
  | some (derivation :: additional) => checkTxKeyHelper c tx address derivation additional
  | _ => .error .keyDerivation

def encodePair (p : ProofPair) : Blob :=
  Base58.encode (bytesOf publicKeySize p.key) ++ Base58.encode (bytesOf signatureSize p.sig)

def getTxProof : Except TxProofError Blob := do
  let pairs ← proofPairs c w txid tx txKey additionalTxKeys address isSubaddress message rand
  let received ← received c tx address pairs
  if received = 0 then throw .noFundsReceived
  return text (if isOut w address then "OutProofV1" else "InProofV1") ++ pairs.flatMap encodePair

end

/-- The lengths of the encoded key and signature, which do not depend on their bytes. -/
def pkLen : Nat := (Base58.encode (List.replicate publicKeySize 0)).length
def sigLen : Nat := (Base58.encode (List.replicate signatureSize 0)).length

def decodePair (enc : Blob) : Option ProofPair := do
  let key ← Base58.decode (enc.take pkLen)
  let sig ← Base58.decode ((enc.drop pkLen).take sigLen)
  if key.length ≠ publicKeySize ∨ sig.length ≠ signatureSize then none
  return ⟨ofBytes 256 key, ofBytes 512 sig⟩

def decodePairs : Nat → Blob → Option (List ProofPair)
  | 0, _ => some []
  | n + 1, enc => do
    let p ← decodePair enc
    let ps ← decodePairs n (enc.drop (pkLen + sigLen))
    return p :: ps

def decodeTxProof (sigStr : Blob) : Except TxProofError (List ProofPair) :=
  let header := text (if sigStr.take 3 = text "Out" then "OutProofV1" else "InProofV1")
  if sigStr.length < header.length ∨ sigStr.take header.length ≠ header then .error .headerCheck
  else
    let numSigs := (sigStr.length - header.length) / (pkLen + sigLen)
    if sigStr.length ≠ header.length + numSigs * (pkLen + sigLen) then .error .wrongSize
    else
      match decodePairs numSigs (sigStr.drop header.length) with
      | none => .error .decoding
      | some pairs => .ok pairs

section
variable {c : TxProofCrypto} {w : ProofWallet} {txid : Hash} {tx : Transaction} {address : AccountPublicAddress}
  {message : Blob} {rand : Nat → Scalar} {pairs : List ProofPair}

theorem length_encodeKey (key : PublicKey) : (Base58.encode (bytesOf publicKeySize key)).length = pkLen := by
  rw [pkLen, Base58.length_encode, Base58.length_encode, bytesOf_length, length_replicate]

theorem length_encodeSig (sig : Signature) : (Base58.encode (bytesOf signatureSize sig)).length = sigLen := by
  rw [sigLen, Base58.length_encode, Base58.length_encode, bytesOf_length, length_replicate]

theorem length_encodePair (p : ProofPair) : (encodePair p).length = pkLen + sigLen := by
  rw [encodePair, length_append, length_encodeKey, length_encodeSig]

theorem decodePair_encodePair (p : ProofPair) (rest : Blob) : decodePair (encodePair p ++ rest) = some p := by
  have hk : (encodePair p ++ rest).take pkLen = Base58.encode (bytesOf publicKeySize p.key) := by
    rw [encodePair, append_assoc, take_left' (length_encodeKey p.key)]
  have hsig : ((encodePair p ++ rest).drop pkLen).take sigLen = Base58.encode (bytesOf signatureSize p.sig) := by
    rw [encodePair, append_assoc, drop_left' (length_encodeKey p.key), take_left' (length_encodeSig p.sig)]
  simp [decodePair, hk, hsig, Base58.decode_encode, bytesOf_length, publicKeySize, signatureSize, ofBytes_bytesOf]

theorem decodePairs_encodePairs (pairs : List ProofPair) :
    decodePairs pairs.length (pairs.flatMap encodePair) = some pairs := by
  induction pairs with
  | nil => rfl
  | cons p ps ih =>
    rw [flatMap_cons, length_cons, decodePairs, decodePair_encodePair, drop_left' (length_encodePair p), ih]
    rfl

theorem length_encodePairs (pairs : List ProofPair) :
    (pairs.flatMap encodePair).length = pairs.length * (pkLen + sigLen) := by
  induction pairs with
  | nil => simp
  | cons p ps ih =>
    rw [flatMap_cons, length_append, length_encodePair, ih, length_cons, Nat.succ_mul, Nat.add_comm]

theorem decodeTxProof_encoded (out : Bool) (pairs : List ProofPair) :
    decodeTxProof (text (if out then "OutProofV1" else "InProofV1") ++ pairs.flatMap encodePair) = .ok pairs := by
  have hs : 0 < pkLen + sigLen := by decide +kernel
  have hh : ∀ rest : Blob, text (if (text (if out then "OutProofV1" else "InProofV1") ++ rest).take 3 = text "Out"
      then "OutProofV1" else "InProofV1") = text (if out then "OutProofV1" else "InProofV1") := by
    intro rest
    cases out <;> rfl
  rw [decodeTxProof]
  simp only [hh, length_append, length_encodePairs, Nat.add_sub_cancel_left, Nat.mul_div_cancel _ hs,
    take_left, drop_left, decodePairs_encodePairs]
  simp

/-! ## The node's check -/

def ProofWallet.OwnsAddress (c : TxProofCrypto) (w : ProofWallet) : Prop :=
  w.address.viewPublicKey = c.secretKeyToPublicKey w.viewSecretKey

theorem not_isOut_main (w : ProofWallet) : isOut w w.address = false := by simp [isOut, w.main_mem]

theorem check_inboundPair (ho : w.OwnsAddress c) {key : PublicKey} {k : Scalar} {p : ProofPair}
    (h : inboundPair c w txid w.address false message key k = some p) :
    c.checkTxProof (prefixHash txid message) w.address.viewPublicKey key p = true := by
  simp only [inboundPair, Option.bind_eq_bind, Option.bind_eq_some_iff] at h
  obtain ⟨d, hd, sig, hsig, hp⟩ := h
  cases hp
  have hk : w.address.viewPublicKey = c.secretKeyToPublicKey w.viewSecretKey := ho
  rw [hk] at hsig ⊢
  exact c.check_generate _ _ _ _ _ _ hd hsig

theorem check_inboundPairs (ho : w.OwnsAddress c) {i : Nat} {keys : List PublicKey}
    (h : pairsFrom rand (inboundPair c w txid w.address false message) i keys = some pairs) :
    pairs.length = keys.length ∧
      List.zipWith (c.checkTxProof (prefixHash txid message) w.address.viewPublicKey) keys pairs =
        List.replicate pairs.length true := by
  induction keys generalizing i pairs with
  | nil =>
    cases h
    exact ⟨rfl, rfl⟩
  | cons key keys ih =>
    simp only [pairsFrom, Option.bind_eq_bind, Option.bind_eq_some_iff] at h
    obtain ⟨p, hp, ps, hs, ha⟩ := h
    cases ha
    obtain ⟨hl, hc⟩ := ih hs
    refine ⟨by rw [length_cons, length_cons, hl], ?_⟩
    rw [zipWith_cons_cons, check_inboundPair ho hp, hc]
    rfl

theorem goodSignatures_proofPairs (ho : w.OwnsAddress c) {txKey : SecretKey} {additionalTxKeys : List SecretKey}
    (h : proofPairs c w txid tx txKey additionalTxKeys w.address false message rand = .ok pairs) :
    tx.txPubKeyFromExtra ≠ nullPkey ∧ tx.additionalTxPubKeysFromExtra.length + 1 = pairs.length ∧
      c.goodSignatures tx txid w.address pairs message = List.replicate pairs.length true := by
  simp only [proofPairs, not_isOut_main, Bool.false_eq_true, if_false] at h
  split at h
  · cases h
  · rename_i hk
    split at h
    · cases h
    · rename_i pairs' hp
      cases h
      obtain ⟨hl, hc⟩ := check_inboundPairs ho hp
      exact ⟨hk, hl.symm, hc⟩

theorem additionalSlots_good {ds : List KeyDerivation}
    (h : pairs.mapM (fun p => c.generateKeyDerivation p.key) = some ds) :
    c.additionalSlots (List.replicate pairs.length true) pairs = some (ds.map .computed) := by
  induction pairs generalizing ds with
  | nil =>
    cases h
    rfl
  | cons p ps ih =>
    simp only [mapM_cons, Option.bind_eq_bind, Option.bind_eq_some_iff] at h
    obtain ⟨d, hd, rest, hr, hs⟩ := h
    cases hs
    have hl := ih hr
    simp [replicate_succ, ProofCrypto.additionalSlots, ProofCrypto.slotOf, hd, hl]

/-- Where the wallet computes an amount, the node computes the same from pairs it finds good. -/
theorem checkSpinnerTransactionProof_received {amount : UInt64} (hke : tx.txPubKeyFromExtra ≠ nullPkey)
    (hs : tx.additionalTxPubKeysFromExtra.length + 1 = pairs.length)
    (hg : c.goodSignatures tx txid address pairs message = List.replicate pairs.length true)
    (h : received c tx address pairs = .ok amount) (minLock : UInt64) (stack : KeyDerivation) :
    ∃ uses, c.checkSpinnerTransactionProof tx txid address pairs message minLock stack =
      .ok { locked := if amount < minLock then none else some amount, uses } := by
  cases pairs with
  | nil => simp at hs
  | cons p ps =>
    rw [received] at h
    split at h
    · rename_i derivation additional hde
      simp only [mapM_cons, Option.bind_eq_bind, Option.bind_eq_some_iff] at hde
      obtain ⟨d, hd, ds, hds, heq⟩ := hde
      cases heq
      rw [checkTxKeyHelper] at h
      split at h
      · cases h
      · rename_i k hk
        split at h
        · rename_i ho
          cases h
          refine ⟨k.uses, ?_⟩
          have ha : c.slotOf stack true p = some (.computed derivation) := by simp [ProofCrypto.slotOf, hd]
          unfold ProofCrypto.checkSpinnerTransactionProof
          rw [if_neg hke, if_neg (not_not.mpr hs), hg]
          simp only [length_cons, replicate_succ, any_cons, id, Bool.true_or, if_true, ha,
            additionalSlots_good hds, hk, ho, true_and]
          by_cases hi : k.received < minLock
          · simp [hi]
          · simp [hi]
        · cases h
    · cases h

/-- Decoding a proof for the main address gives its pairs back, and the node computes the wallet's
amount. -/
theorem lock_proofs_agree (c : TxProofCrypto) (w : ProofWallet) (hown : w.OwnsAddress c) (txid : Hash) (tx : Transaction)
    (txKey : SecretKey) (additionalTxKeys : List SecretKey) (rand : Nat → Scalar) {proof : Blob}
    (h : getTxProof c w txid tx txKey additionalTxKeys w.address false [] rand = .ok proof) :
    ∃ pairs amount, proofPairs c w txid tx txKey additionalTxKeys w.address false [] rand = .ok pairs ∧
      received c tx w.address pairs = .ok amount ∧ decodeTxProof proof = .ok pairs ∧
      ∀ minLock stack, ∃ uses, c.checkSpinnerTransactionProof tx txid w.address pairs [] minLock stack =
        .ok { locked := if amount < minLock then none else some amount, uses } := by
  rw [getTxProof] at h
  cases hp : proofPairs c w txid tx txKey additionalTxKeys w.address false [] rand with
  | error e =>
    rw [hp] at h
    cases h
  | ok pairs =>
    cases ha : received c tx w.address pairs with
    | error e =>
      simp only [hp, bind, Except.bind, ha] at h
      cases h
    | ok amount =>
      have hr :
          text (if isOut w w.address then "OutProofV1" else "InProofV1") ++ pairs.flatMap encodePair = proof := by
        simp only [hp, bind, Except.bind, ha] at h
        split at h
        · cases h
        · cases h
          rfl
      obtain ⟨hk, hs, hg⟩ := goodSignatures_proofPairs hown hp
      refine ⟨pairs, amount, rfl, ha, ?_, fun minLock stack => ?_⟩
      · rw [← hr]
        exact decodeTxProof_encoded _ pairs
      · exact checkSpinnerTransactionProof_received hk hs hg ha minLock stack

end

namespace Sample

open Gyro.Sample

def txProofCrypto : TxProofCrypto where
  toProofCrypto := proofCrypto
  secretKeyToPublicKey a := a
  scalarmultKey key a := some (key * a)
  generateTxProof _ _ _ _ _ _ _ := some 1
  check_generate _ _ _ _ _ _ _ hsig := decide_eq_true (Option.some.inj hsig).symm

def proofWallet : ProofWallet :=
  { address := ⟨1000, 2⟩, viewSecretKey := 2, subaddresses := [1000], main_mem := by decide }

def walletLock : Transaction := lockTx [1010, 1015] [.pubKey 5, .additionalPubKeys [6, 7]]

def walletLockProof : Except TxProofError Blob :=
  getTxProof txProofCrypto proofWallet 1 walletLock 0 [] proofWallet.address false [] fun _ => 0

end Sample

open Gyro.Wallet.Sample

theorem lock_proofs_agree_two_outputs :
    ∃ proof, walletLockProof = .ok proof ∧ decodeTxProof proof = .ok [⟨10, 1⟩, ⟨12, 1⟩, ⟨14, 1⟩] ∧
      ∃ uses, txProofCrypto.checkSpinnerTransactionProof walletLock 1 proofWallet.address
        [⟨10, 1⟩, ⟨12, 1⟩, ⟨14, 1⟩] [] 60 0 = .ok { locked := some 100, uses } := by
  have hs : ∃ proof, walletLockProof = .ok proof := ⟨_, rfl⟩
  obtain ⟨proof, hp⟩ := hs
  obtain ⟨pairs, amount, ha, ham, hd, hn⟩ :=
    lock_proofs_agree txProofCrypto proofWallet rfl 1 walletLock 0 [] (fun _ => 0) hp
  have hmd : Except.ok [⟨10, 1⟩, ⟨12, 1⟩, ⟨14, 1⟩] = Except.ok pairs := ha
  cases hmd
  have hf : Except.ok 100 = Except.ok amount := ham
  cases hf
  exact ⟨proof, hp, hd, hn 60 0⟩

end Gyro.Wallet
