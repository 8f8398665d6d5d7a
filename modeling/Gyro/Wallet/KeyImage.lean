import Gyro.Wallet.Callbacks
import Gyro.Wallet.Multisig

/-!
# Composite key images

`generate_multisig_composite_key_image` (`multisig.cpp`) over `generate_key_image_helper`
(`cryptonote_format_utils.cpp`), for the software device. The helper derives again what the wallet's scan
had derived when it found the output.
-/

namespace Gyro.Wallet.Multisig

structure ImageOps (S P : Type) extends KeyOps S P where
  generateKeyDerivation : P → S → Option P
  derivationToScalar : P → ℕ → S
  getSubaddressSecretKey : S → SubaddressIndex → S
  hashToEc : P → P

section
variable {S P : Type} [CommRing S] [AddCommGroup P] [Module S P] (ops : ImageOps S P)

def derivePublicKey (d : P) (i : ℕ) (base : P) : P := publicKey ops.toKeyOps (ops.derivationToScalar d i) + base

def deriveSecretKey (d : P) (i : ℕ) (base : S) : S := ops.derivationToScalar d i + base

def deriveSubaddressPublicKey (outKey d : P) (i : ℕ) : P := outKey - publicKey ops.toKeyOps (ops.derivationToScalar d i)

def generateKeyImage (pub : P) (sec : S) : P := sec • ops.hashToEc pub

variable (subaddresses : P → Option SubaddressIndex)

def isOutToAccPrecomp (outKey derivation : P) (additional : List P) (i : ℕ) : Option (SubaddressIndex × P) :=
  match subaddresses (deriveSubaddressPublicKey ops outKey derivation i) with
  | some index => some (index, derivation)
  | none => additional[i]?.bind fun d => (subaddresses (deriveSubaddressPublicKey ops outKey d i)).map (·, d)

variable [DecidableEq S] [DecidableEq P] (w : MultisigWallet S P)

/-- A null spend key is that of a watch-only wallet. -/
def generateKeyImageHelperPrecomp (outKey derivation : P) (i : ℕ) (index : SubaddressIndex) : Option P :=
  if w.spendSecretKey = 0 then some (generateKeyImage ops outKey 0)
  else
    let subaddrSk := ops.getSubaddressSecretKey w.viewSecretKey index
    let step1 := deriveSecretKey ops derivation i w.spendSecretKey
    let sec := if index = ⟨0, 0⟩ then step1 else step1 + subaddrSk
    let pub :=
      if w.multisigKeys = [] then publicKey ops.toKeyOps sec
      else
        let pub := derivePublicKey ops derivation i w.spendPublicKey
        if index = ⟨0, 0⟩ then pub else pub + publicKey ops.toKeyOps subaddrSk
    if pub = outKey then some (generateKeyImage ops pub sec) else none

def recvDerivation (txPublicKey : P) : P := (ops.generateKeyDerivation txPublicKey w.viewSecretKey).getD 0

/-- The derivations in `generate_key_image_helper`: a key that is no point is left out. -/
def additionalRecvDerivations (keys : List P) : List P := keys.filterMap (ops.generateKeyDerivation · w.viewSecretKey)

/-- The derivations in the scan: the identity stands for a key that is no point. -/
def additionalScanDerivations (keys : List P) : List P :=
  keys.map fun k => (ops.generateKeyDerivation k w.viewSecretKey).getD 0

def generateKeyImageHelper (outKey txPublicKey : P) (additional : List P) (i : ℕ) : Option P :=
  (isOutToAccPrecomp ops subaddresses outKey (recvDerivation ops w txPublicKey) (additionalRecvDerivations ops w additional)
    i).bind fun (index, d) => generateKeyImageHelperPrecomp ops w outKey d i index

def generateMultisigKeyImage (m : ℕ) (outKey : P) : Option P := w.multisigKeys[m]?.map (generateKeyImage ops outKey)

/-- The loop over the partial images. -/
def addUnused : List P × P → P → List P × P
  | (used, ki), pki => if pki ∈ used then (used, ki) else (pki :: used, ki + pki)

def generateMultisigCompositeKeyImage (outKey txPublicKey : P) (additional : List P) (i : ℕ) (pkis : List P) : Option P :=
  (generateKeyImageHelper ops subaddresses w outKey txPublicKey additional i).bind fun ki =>
    ((List.range w.multisigKeys.length).mapM (generateMultisigKeyImage ops w · outKey)).map fun used =>
      (pkis.foldl addUnused (used, ki)).2

/-- The output is found with one of the derivations. -/
def FoundWith (outKey derivation : P) (additional : List P) (i : ℕ) : Prop :=
  ∃ d, (d = derivation ∨ additional[i]? = some d) ∧ (subaddresses (deriveSubaddressPublicKey ops outKey d i)).isSome

/-- What a subaddress adds to the spend key; nothing for the main address. -/
def subaddressOffset (index : SubaddressIndex) : S :=
  if index = ⟨0, 0⟩ then 0 else ops.getSubaddressSecretKey w.viewSecretKey index

/-- A signer's wallet, where `K` are the secret keys of all the signers. -/
structure IsSigner (K : Finset S) : Prop where
  nodup : w.multisigKeys.Nodup
  subset : ∀ k ∈ w.multisigKeys, k ∈ K
  spendSecretKey_eq : w.spendSecretKey = w.multisigKeys.sum
  spendPublicKey_eq : w.spendPublicKey = publicKey ops.toKeyOps (∑ k ∈ K, k)
  subaddress_eq : ∀ key index, subaddresses key = some index →
    key = w.spendPublicKey + publicKey ops.toKeyOps (subaddressOffset ops w index)

/-- Partial images of signers who have, together with this one, all the keys. -/
structure Covers (K : Finset S) (outKey : P) (pkis : List P) : Prop where
  image : ∀ pki ∈ pkis, ∃ k ∈ K, pki = generateKeyImage ops outKey k
  all : ∀ k ∈ K, k ∈ w.multisigKeys ∨ generateKeyImage ops outKey k ∈ pkis

variable {ops subaddresses w} {K : Finset S} {outKey derivation txPublicKey : P} {additional pkis : List P} {i : ℕ}

omit [DecidableEq S] [DecidableEq P] in
theorem isOutToAccPrecomp_some {r : SubaddressIndex × P}
    (h : isOutToAccPrecomp ops subaddresses outKey derivation additional i = some r) :
    subaddresses (deriveSubaddressPublicKey ops outKey r.2 i) = some r.1 := by
  unfold isOutToAccPrecomp at h
  split at h
  next index hi =>
    cases h
    exact hi
  next =>
    simp only [Option.bind_eq_some_iff, Option.map_eq_some_iff] at h
    obtain ⟨d, -, index, hi, rfl⟩ := h
    exact hi

omit [DecidableEq S] [DecidableEq P] in
theorem isSome_isOutToAccPrecomp : (isOutToAccPrecomp ops subaddresses outKey derivation additional i).isSome ↔
    FoundWith ops subaddresses outKey derivation additional i := by
  unfold isOutToAccPrecomp FoundWith
  cases hm : subaddresses (deriveSubaddressPublicKey ops outKey derivation i) with
  | some index => simp [hm]
  | none => cases additional[i]? <;> simp [hm]

theorem foldl_addUnused (used pkis : List P) (ki : P) :
    (pkis.foldl addUnused (used, ki)).2 = ki + ∑ p ∈ pkis.toFinset \ used.toFinset, p := by
  induction pkis generalizing used ki with
  | nil => simp
  | cons p ps ih =>
    rw [List.foldl_cons, List.toFinset_cons, addUnused]
    by_cases hp : p ∈ used
    · rw [if_pos hp, ih, Finset.insert_sdiff_of_mem _ (List.mem_toFinset.mpr hp)]
    · have hs : insert p ps.toFinset \ used.toFinset = insert p (ps.toFinset \ (p :: used).toFinset) := by
        ext q
        by_cases hq : q = p <;> simp [hq, hp]
      rw [if_neg hp, ih, hs, Finset.sum_insert (by simp), add_assoc]

theorem mapM_range_length {α β : Type} (f : α → β) (l : List α) :
    ((List.range l.length).mapM fun m => l[m]?.map f) = some (l.map f) := by
  induction l with
  | nil => rfl
  | cons a l ih => simp [List.range_succ_eq_map, List.mapM_map, Function.comp_def, ih]

/-- The images that are added are those of the keys of the others. -/
theorem IsSigner.sum_unused (hw : IsSigner ops subaddresses w K) (hp : Covers ops w K outKey pkis)
    (hH : Function.Injective (generateKeyImage ops outKey)) :
    ∑ p ∈ pkis.toFinset \ (w.multisigKeys.map (generateKeyImage ops outKey)).toFinset, p =
      generateKeyImage ops outKey (∑ k ∈ K, k - w.spendSecretKey) := by
  have hs : pkis.toFinset \ (w.multisigKeys.map (generateKeyImage ops outKey)).toFinset =
      (K \ w.multisigKeys.toFinset).image (generateKeyImage ops outKey) := by
    ext p
    simp only [Finset.mem_sdiff, List.mem_toFinset, List.mem_map, Finset.mem_image, not_exists, not_and]
    constructor
    · rintro ⟨hq, hn⟩
      obtain ⟨k, hk, rfl⟩ := hp.image p hq
      exact ⟨k, ⟨hk, fun h => hn k h rfl⟩, rfl⟩
    · rintro ⟨k, ⟨hk, hn⟩, rfl⟩
      refine ⟨(hp.all k hk).resolve_left hn, fun j hj hjk => ?_⟩
      exact hn (hH hjk ▸ hj)
  have hu : w.multisigKeys.toFinset ⊆ K := fun k hk => hw.subset k (List.mem_toFinset.mp hk)
  rw [hs, Finset.sum_image fun a _ b _ h => hH h, ← Finset.sum_sdiff hu, List.sum_toFinset _ hw.nodup, List.map_id',
    ← hw.spendSecretKey_eq, add_sub_cancel_right]
  exact Finset.sum_smul.symm

/-- Where the output was found, the helper's image is that of the one-time key without the others' part. -/
theorem IsSigner.helperPrecomp_eq (hw : IsSigner ops subaddresses w K) (hn : w.spendSecretKey ≠ 0) {d : P}
    {index : SubaddressIndex} (hf : subaddresses (deriveSubaddressPublicKey ops outKey d i) = some index)
    (hG : Function.Injective (publicKey ops.toKeyOps)) {x : S} (hx : publicKey ops.toKeyOps x = outKey) :
    generateKeyImageHelperPrecomp ops w outKey d i index =
      some (generateKeyImage ops outKey (x - (∑ k ∈ K, k - w.spendSecretKey))) := by
  have hne : w.multisigKeys ≠ [] := by
    intro h
    exact hn (by rw [hw.spendSecretKey_eq, h, List.sum_nil])
  have ha : ∀ a b : S, publicKey ops.toKeyOps (a + b) = publicKey ops.toKeyOps a + publicKey ops.toKeyOps b :=
    fun a b => add_smul a b _
  have ho : outKey = publicKey ops.toKeyOps (ops.derivationToScalar d i) +
      (w.spendPublicKey + publicKey ops.toKeyOps (subaddressOffset ops w index)) := by
    rw [← hw.subaddress_eq _ _ hf, deriveSubaddressPublicKey, add_sub_cancel]
  have hxe : x = ops.derivationToScalar d i + (∑ k ∈ K, k + subaddressOffset ops w index) := by
    apply hG
    rw [hx, ha, ha, ← hw.spendPublicKey_eq, ← ho]
  have hs : ∀ a : S, (if index = ⟨0, 0⟩ then a else a + ops.getSubaddressSecretKey w.viewSecretKey index) =
      a + subaddressOffset ops w index := by
    intro a
    unfold subaddressOffset
    split <;> simp
  have hp : ∀ p : P, (if index = ⟨0, 0⟩ then p else
      p + publicKey ops.toKeyOps (ops.getSubaddressSecretKey w.viewSecretKey index)) =
      p + publicKey ops.toKeyOps (subaddressOffset ops w index) := by
    intro p
    unfold subaddressOffset
    split <;> simp [publicKey]
  rw [generateKeyImageHelperPrecomp, if_neg hn]
  simp only [if_neg hne, hs, hp]
  simp only [derivePublicKey, add_assoc, ← ho, if_true]
  rw [hxe, deriveSecretKey]
  ring

/-- Every covering list of partial images gives the image of the one-time secret key, exactly if the output is found
with the derivations of the keys that are points, and the spend key is not null or the one-time key has no other part. -/
theorem composite_key_image_iff {S P : Type} [CommRing S] [DecidableEq S] [AddCommGroup P] [Module S P] [DecidableEq P]
    (ops : ImageOps S P) (subaddresses : P → Option SubaddressIndex) (w : MultisigWallet S P) (K : Finset S) (outKey
    txPublicKey : P) (additional pkis : List P) (i : ℕ) (x : S) (hw : IsSigner ops subaddresses w K)
    (hG : Function.Injective (publicKey ops.toKeyOps)) (hH : Function.Injective (generateKeyImage ops outKey))
    (hx : publicKey ops.toKeyOps x = outKey) (hp : Covers ops w K outKey pkis) :
    generateMultisigCompositeKeyImage ops subaddresses w outKey txPublicKey additional i pkis =
        some (generateKeyImage ops outKey x) ↔
      FoundWith ops subaddresses outKey (recvDerivation ops w txPublicKey) (additionalRecvDerivations ops w additional) i ∧
        (w.spendSecretKey ≠ 0 ∨ outKey = w.spendPublicKey) := by
  have ha : ∀ a b : S, generateKeyImage ops outKey a + generateKeyImage ops outKey b = generateKeyImage ops outKey (a + b) :=
    fun a b => (add_smul a b _).symm
  rw [← isSome_isOutToAccPrecomp, generateMultisigCompositeKeyImage, generateKeyImageHelper]
  simp only [generateMultisigKeyImage, mapM_range_length, Option.map_some, foldl_addUnused, hw.sum_unused hp hH]
  cases hr : isOutToAccPrecomp ops subaddresses outKey (recvDerivation ops w txPublicKey)
    (additionalRecvDerivations ops w additional) i with
  | none => simp
  | some r =>
    by_cases hn : w.spendSecretKey = 0
    · have hk : outKey = w.spendPublicKey ↔ ∑ k ∈ K, k = x := by
        rw [← hx, hw.spendPublicKey_eq, hG.eq_iff, eq_comm]
      simp [generateKeyImageHelperPrecomp, hn, ha, hH.eq_iff, hk]
    · simp [hw.helperPrecomp_eq hn (isOutToAccPrecomp_some hr) hG hx, hn, ha]

end

/-- The integers modulo seven, where zero is no point. -/
def smallOps : ImageOps (ZMod 7) (ZMod 7) where
  blind := id
  hashKey := id
  base := 1
  nullPkey := 0
  memcmp _ _ := 0
  sort _ := id
  generateKeyDerivation p a := if p = 0 then none else some (a * p)
  derivationToScalar d _ := d
  getSubaddressSecretKey _ index := index.minor.toNat
  hashToEc _ := 1

def smallWallet : MultisigWallet (ZMod 7) (ZMod 7) :=
  { viewSecretKey := 1, spendSecretKey := 2, spendPublicKey := 5, multisigKeys := [2], derivations := [], threshold := 2
    signers := [], roundsPassed := 1 }

def smallTable (key : ZMod 7) : Option SubaddressIndex := if key = 5 then some ⟨0, 0⟩ else none

theorem isSigner_smallWallet : IsSigner smallOps smallTable smallWallet {2, 3} := by
  constructor
  all_goals decide +kernel

theorem covers_smallWallet : Covers smallOps smallWallet {2, 3} 2 [3, 2, 3] := by
  constructor
  all_goals decide +kernel

theorem composite_key_image_of_two_keys :
    generateMultisigCompositeKeyImage smallOps smallTable smallWallet 2 1 [3, 4] 1 [3, 2, 3] =
      some (generateKeyImage smallOps 2 2) :=
  (composite_key_image_iff smallOps smallTable smallWallet {2, 3} 2 1 [3, 4] [3, 2, 3] 1 2 isSigner_smallWallet
    (by decide +kernel) (by decide +kernel) (by decide +kernel) covers_smallWallet).mpr
    ⟨⟨4, by decide +kernel, by decide +kernel⟩, by decide +kernel⟩

/-- The scan finds the output with the second key, the first of those that are points. -/
theorem key_no_point_before_output :
    FoundWith smallOps smallTable 2 (recvDerivation smallOps smallWallet 1)
      (additionalScanDerivations smallOps smallWallet [0, 4]) 1 ∧
    Covers smallOps smallWallet {2, 3} 2 [3, 2, 3] ∧
    generateMultisigCompositeKeyImage smallOps smallTable smallWallet 2 1 [0, 4] 1 [3, 2, 3] = none :=
  ⟨⟨4, by decide +kernel, by decide +kernel⟩, covers_smallWallet, by decide +kernel⟩

end Gyro.Wallet.Multisig
