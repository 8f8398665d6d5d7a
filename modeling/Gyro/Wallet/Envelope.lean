import Gyro.Types
import Mathlib.Data.Nat.Digits.Defs

/-!
# Envelopes

What is put around a message: MessagePack records, third-party code that enters with its
law, and the encryption of `wallet_zyre_util.cpp`, copied in `mms_transporter2.cpp`.
-/

namespace Gyro.Wallet

abbrev SecretKey := BitVec 256
abbrev KeyDerivation := BitVec 256
abbrev ChachaIv := BitVec 64

structure Codec (α : Type) where
  pack : α → Blob
  unpack : Blob → Option (α × Blob)
  unpack_pack : ∀ a rest, unpack (pack a ++ rest) = some (a, rest)

structure DataVersion where
  major : UInt8
  minor : UInt8
  deriving DecidableEq

/-- `data_cipher_t`: the ciphertext, its nonce and the sender's one-time public key. -/
structure DataCipher where
  d : Blob
  iv : ChachaIv
  k : PublicKey
  deriving DecidableEq

/-- Both sides derive the same key, and the cipher is its own inverse. -/
structure CipherSuite where
  secretKeyToPublicKey : SecretKey → PublicKey
  /-- `none` when the public key is no curve point. -/
  generateKeyDerivation : PublicKey → SecretKey → Option KeyDerivation
  /-- `chacha20` under the key that `generate_chacha_key` makes of a derivation. -/
  chacha20 : KeyDerivation → ChachaIv → Blob → Blob
  isSome_derivation : ∀ a r, (generateKeyDerivation (secretKeyToPublicKey a) r).isSome
  derivation_comm : ∀ a r,
    generateKeyDerivation (secretKeyToPublicKey a) r = generateKeyDerivation (secretKeyToPublicKey r) a
  chacha20_chacha20 : ∀ d iv m, chacha20 d iv (chacha20 d iv m) = m

structure Ephemeral where
  secret : SecretKey
  iv : ChachaIv
  deriving DecidableEq

namespace CipherSuite

variable (suite : CipherSuite)

def encrypt (publicKey : PublicKey) (plaintext : Blob) (e : Ephemeral) : Option DataCipher :=
  (suite.generateKeyDerivation publicKey e.secret).map fun derivation =>
    { d := suite.chacha20 derivation e.iv plaintext, iv := e.iv, k := suite.secretKeyToPublicKey e.secret }

def decrypt (c : DataCipher) (viewSecretKey : SecretKey) : Option Blob :=
  (suite.generateKeyDerivation c.k viewSecretKey).map fun derivation => suite.chacha20 derivation c.iv c.d

variable {suite} {sec : SecretKey} {plaintext : Blob} {e : Ephemeral} {c : DataCipher}

theorem decrypt_encrypt (h : suite.encrypt (suite.secretKeyToPublicKey sec) plaintext e = some c) :
    suite.decrypt c sec = some plaintext := by
  obtain ⟨derivation, hd, rfl⟩ := Option.map_eq_some_iff.mp h
  have hc := (suite.derivation_comm sec e.secret).symm.trans hd
  simp [decrypt, hc, suite.chacha20_chacha20]

theorem isSome_encrypt (plaintext : Blob) (e : Ephemeral) :
    (suite.encrypt (suite.secretKeyToPublicKey sec) plaintext e).isSome := by
  simpa [encrypt] using suite.isSome_derivation sec e.secret

end CipherSuite

/-! ## Records that can be evaluated, with the law assumed above -/

namespace Codec

def packBytes : Blob → Blob
  | [] => [0]
  | b :: rest => 1 :: b :: packBytes rest

def unpackBytes : Blob → Option (Blob × Blob)
  | 0 :: rest => some ([], rest)
  | 1 :: b :: rest => (unpackBytes rest).map fun (bytes, rest) => (b :: bytes, rest)
  | _ => none

theorem unpackBytes_packBytes (bytes rest : Blob) : unpackBytes (packBytes bytes ++ rest) = some (bytes, rest) := by
  induction bytes with
  | nil => simp [packBytes, unpackBytes]
  | cons b bytes ih => simp [packBytes, unpackBytes, ih]

def bytes : Codec Blob := ⟨packBytes, unpackBytes, unpackBytes_packBytes⟩

variable {α β : Type}

def via (codec : Codec β) (f : α → β) (g : β → α) (hg : ∀ a, g (f a) = a) : Codec α where
  pack a := codec.pack (f a)
  unpack blob := (codec.unpack blob).map fun (b, rest) => (g b, rest)
  unpack_pack a rest := by simp [codec.unpack_pack, hg]

def pair (first : Codec α) (second : Codec β) : Codec (α × β) where
  pack ab := first.pack ab.1 ++ second.pack ab.2
  unpack blob := (first.unpack blob).bind fun (a, rest) => (second.unpack rest).map fun (b, rest) => ((a, b), rest)
  unpack_pack ab rest := by simp [first.unpack_pack, second.unpack_pack]

theorem ofDigits_bytes (n : Nat) : Nat.ofDigits 256 (((Nat.digits 256 n).map UInt8.ofNat).map UInt8.toNat) = n := by
  have hb : ((Nat.digits 256 n).map UInt8.ofNat).map UInt8.toNat = Nat.digits 256 n := by
    rw [List.map_map]
    refine (List.map_congr_left fun d hd => ?_).trans (List.map_id _)
    exact UInt8.toNat_ofNat_of_lt' (Nat.digits_lt_base (by decide) hd)
  rw [hb, Nat.ofDigits_digits]

def number : Codec Nat :=
  bytes.via (fun n => (Nat.digits 256 n).map UInt8.ofNat) (fun b => Nat.ofDigits 256 (b.map UInt8.toNat)) ofDigits_bytes

def word (w : Nat) : Codec (BitVec w) := number.via BitVec.toNat (BitVec.ofNat w) (by simp)

end Codec

namespace Sample

def versionCodec : Codec DataVersion :=
  (Codec.number.pair Codec.number).via (fun v => (v.major.toNat, v.minor.toNat))
    (fun p => ⟨UInt8.ofNat p.1, UInt8.ofNat p.2⟩) (by simp)

def cipherCodec : Codec DataCipher :=
  (Codec.bytes.pair ((Codec.word 64).pair (Codec.word 256))).via (fun c => (c.d, c.iv, c.k))
    (fun p => ⟨p.1, p.2.1, p.2.2⟩) (fun _ => rfl)

def suite : CipherSuite where
  secretKeyToPublicKey a := a
  generateKeyDerivation p r := some (p * r)
  chacha20 d _ m := m.map (· ^^^ d.toNat.toUInt8)
  isSome_derivation _ _ := rfl
  derivation_comm a r := by rw [BitVec.mul_comm]
  chacha20_chacha20 d _ m := by
    rw [List.map_map]
    refine (List.map_congr_left fun b _ => ?_).trans (List.map_id m)
    simp [UInt8.xor_assoc]

end Sample

end Gyro.Wallet
