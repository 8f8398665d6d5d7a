import Gyro.Archive
import Gyro.Wallet.Mms
import Mathlib

/-!
# The checksum of a signer configuration

`mms_store::get_config_checksum` adds up the hashes of the keys of all signers, so that it
does not depend on their order.
-/

namespace Gyro.Wallet

open List

def addHash (sum summand : HashT) : HashT where
  bytes := zipWith (· + ·) sum.bytes summand.bytes
  length_eq := by simp [sum.length_eq, summand.length_eq]

structure AuthorizedSigners where
  numRequiredSigners : UInt32
  /-- The addresses of the signers, which are as many as `m_num_authorized_signers`. -/
  addresses : List AccountPublicAddress

namespace AuthorizedSigners

variable (cnFastHash : Blob → HashT) (c c' : AuthorizedSigners)

def keys : List PublicKey := c.addresses.flatMap fun a => [a.spendPublicKey, a.viewPublicKey]

def summands : List Blob :=
  bytesOf 4 (UInt32.ofNat c.addresses.length).toBitVec :: bytesOf 4 c.numRequiredSigners.toBitVec ::
    c.keys.map (bytesOf 32)

def nullHash : HashT := { bytes := replicate 32 0, length_eq := by simp }

def configSum : HashT := c.summands.foldl (fun sum data => addHash sum (cnFastHash data)) nullHash

/-- The checksums tell whether two configurations of as many signers have the same signers. -/
structure Identified : Prop where
  same : c.addresses ~ c'.addresses → c.numRequiredSigners = c'.numRequiredSigners →
    c.configSum cnFastHash = c'.configSum cnFastHash
  differ : (∃ a, ¬(a ∈ c.addresses ↔ a ∈ c'.addresses)) ∨ c.numRequiredSigners ≠ c'.numRequiredSigners →
    c.configSum cnFastHash ≠ c'.configSum cnFastHash

variable {cnFastHash c c'}

theorem addHash_right_comm (a b d : HashT) : addHash (addHash a b) d = addHash (addHash a d) b := by
  simp only [addHash, HashT.mk.injEq]
  apply ext_getElem
  · simp [a.length_eq, b.length_eq, d.length_eq]
  · intro i _ _
    simp only [getElem_zipWith, UInt8.add_assoc]
    exact congrArg _ (UInt8.add_comm ..)

theorem configSum_perm (h : c.summands ~ c'.summands) : c.configSum cnFastHash = c'.configSum cnFastHash :=
  haveI : RightCommutative fun sum data => addHash sum (cnFastHash data) := ⟨fun _ _ _ => addHash_right_comm ..⟩
  h.foldl_eq nullHash

theorem bytesOf_injective {w n : Nat} (hw : w = 8 * n) : Function.Injective (bytesOf n : BitVec w → Blob) :=
  Function.LeftInverse.injective fun _ => ofBytes_bytesOf hw

theorem summands_perm_iff (hlen : c.addresses.length = c'.addresses.length) :
    c.summands ~ c'.summands ↔ c.numRequiredSigners = c'.numRequiredSigners ∧ c.keys ~ c'.keys := by
  have hs : ∀ c : AuthorizedSigners, c.summands.filter (·.length = 32) = c.keys.map (bytesOf 32) ∧
      c.summands.filter (·.length = 4) = c.summands.take 2 := by
    intro c
    simp [summands, bytesOf_length, filter_eq_self, filter_eq_nil_iff]
  constructor
  · intro h
    have hk := h.filter (·.length = 32)
    have hn := h.filter (·.length = 4)
    rw [(hs c).1, (hs c').1] at hk
    rw [(hs c).2, (hs c').2] at hn
    simp only [summands, take_succ_cons, take_zero, hlen, perm_cons, singleton_perm_singleton] at hn
    exact ⟨UInt32.toBitVec_inj.mp (bytesOf_injective rfl hn),
      (map_perm_map_iff (bytesOf_injective rfl)).mp hk⟩
  · rintro ⟨hr, hk⟩
    rw [summands, hlen, hr]
    exact ((hk.map _).cons _).cons _

/-- Unless two configurations have the same keys, paired in another way. -/
theorem config_checksum_identifies_iff (hlen : c.addresses.length = c'.addresses.length)
    (hsum : c.configSum cnFastHash = c'.configSum cnFastHash → c.summands ~ c'.summands) :
    Identified cnFastHash c c' ↔ (c.numRequiredSigners = c'.numRequiredSigners → c.keys ~ c'.keys →
      ∀ a, a ∈ c.addresses ↔ a ∈ c'.addresses) := by
  have hi : c.configSum cnFastHash = c'.configSum cnFastHash ↔
      c.numRequiredSigners = c'.numRequiredSigners ∧ c.keys ~ c'.keys := by
    rw [← summands_perm_iff hlen]
    exact ⟨hsum, configSum_perm⟩
  constructor
  · intro h hr hk a
    by_contra hn
    exact h.differ (Or.inl ⟨a, hn⟩) (hi.mpr ⟨hr, hk⟩)
  · intro h
    constructor
    · intro hp hr
      exact hi.mpr ⟨hr, hp.flatMap_right _⟩
    · rintro (⟨a, hn⟩ | hn) heq
      · exact hn (h (hi.mp heq).1 (hi.mp heq).2 a)
      · exact hn (hi.mp heq).1

theorem config_checksum_identifies_required :
    let cnFastHash : Blob → HashT := fun data => if data = [2, 0, 0, 0] then ⟨replicate 32 1, rfl⟩ else nullHash
    Identified cnFastHash ⟨1, [⟨1, 2⟩, ⟨3, 4⟩]⟩ ⟨2, [⟨1, 2⟩, ⟨3, 4⟩]⟩ := by
  intro cnFastHash
  have hs : configSum cnFastHash ⟨1, [⟨1, 2⟩, ⟨3, 4⟩]⟩ ≠ configSum cnFastHash ⟨2, [⟨1, 2⟩, ⟨3, 4⟩]⟩ := by
    decide +kernel
  exact (config_checksum_identifies_iff (by rfl) fun h => absurd h hs).mpr fun h => absurd h (by decide)

/-- Two signers whose view keys have been exchanged. -/
theorem exchanged_keys_not_identified :
    ¬ Identified (fun data => ⟨(data ++ replicate 32 0).take 32, by simp⟩)
      ⟨2, [⟨1, 2⟩, ⟨3, 4⟩]⟩ ⟨2, [⟨1, 4⟩, ⟨3, 2⟩]⟩ := by
  intro h
  apply h.differ (Or.inl ⟨⟨1, 2⟩, by decide⟩)
  apply configSum_perm
  exact (summands_perm_iff (by rfl)).mpr ⟨rfl, by decide⟩

end AuthorizedSigners

end Gyro.Wallet
