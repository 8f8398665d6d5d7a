import Gyro.Wallet.Multisig

/-!
# What the wallets of a key exchange agree on

After round `r` a wallet's derivations are the keys of the sets of `r + 1` signers it is
one of. `M` wallets meet each set of `N - M + 1` signers, and `M - 1` leave one out.
-/

namespace Gyro.Wallet.Multisig

open SubsetShares ShortSort

section
variable {S P : Type} [CommRing S] [AddCommGroup P] [Module S P] (env : KeyOps S P) {ι : Type}
  (seeds : ι → Seed S)

def derived (T : Finset ι) : P := (∏ i ∈ T, env.blind (seeds i).spend) • env.base

def sharedSecret (T : Finset ι) : S := env.hashKey (derived env seeds T)

variable [Fintype ι] [DecidableEq ι]

def setsWith (i : ι) (n : Nat) : Finset (Finset ι) := (Finset.univ.powersetCard n).filter (i ∈ ·)

def setsWithout (i : ι) (n : Nat) : Finset (Finset ι) := (Finset.univ.powersetCard n).filter (i ∉ ·)

def signerKey (n : Nat) (i : ι) : P := publicKey env (∑ T ∈ setsWith i n, sharedSecret env seeds T)

/-- Different sets of signers give different keys, as do the wallets; the key hash is injective, a
public key has one secret key, and `memcmp` tells keys apart. -/
structure KeysDiffer (n : Nat) : Prop where
  sets : ∀ T T', T.Nonempty → T'.Nonempty → derived env seeds T = derived env seeds T' → T = T'
  signer : Function.Injective (signerKey env seeds n)
  hash : Function.Injective env.hashKey
  base : Function.Injective (publicKey env)
  memcmp : ∀ k k', env.memcmp k k' = 0 ↔ k = k'

end

section
variable {ι : Type} [Fintype ι] [DecidableEq ι] {i : ι} {n : Nat} {T : Finset ι}

theorem mem_setsWith : T ∈ setsWith i n ↔ i ∈ T ∧ T.card = n := by
  simp [setsWith, and_comm]

theorem mem_setsWithout : T ∈ setsWithout i n ↔ i ∉ T ∧ T.card = n := by
  simp [setsWithout, and_comm]

theorem OthersInOrder.length {js : List ι} (h : OthersInOrder i js) : js.length + 1 = Fintype.card ι := by
  have hs : js.toFinset = Finset.univ.erase i := by
    ext j
    simp [h.2 j]
  have hc := List.toFinset_card_of_nodup h.1
  rw [hs, Finset.card_erase_of_mem (Finset.mem_univ i), Finset.card_univ] at hc
  have hp : 0 < Fintype.card ι := Fintype.card_pos_iff.mpr ⟨i⟩
  omega

end

/-! ## Sums and sets -/

section
variable {S : Type} [AddCommMonoid S]

theorem foldl_add (xs : List S) (a : S) : xs.foldl (· + ·) a = a + xs.sum := by
  induction xs generalizing a with
  | nil => simp
  | cons x xs ih => rw [List.foldl_cons, ih, List.sum_cons, add_assoc]

theorem add_sum_others {ι : Type} [Fintype ι] [DecidableEq ι] {i : ι} {js : List ι} (h : OthersInOrder i js)
    (f : ι → S) : f i + (js.map f).sum = ∑ j, f j := by
  have hs : js.toFinset = Finset.univ.erase i := by
    ext j
    simp [h.2 j]
  rw [← List.sum_toFinset f h.1, hs, Finset.add_sum_erase Finset.univ f (Finset.mem_univ i)]

end

section
variable {P : Type} [DecidableEq P]

theorem mem_insertKey {keys : List P} {key k : P} : k ∈ insertKey keys key ↔ k ∈ keys ∨ k = key := by
  unfold insertKey
  split
  · next hme =>
    constructor
    · exact Or.inl
    · rintro (hk | rfl)
      · exact hk
      · exact hme
  · simp

theorem nodup_insertKey {keys : List P} {key : P} (h : keys.Nodup) : (insertKey keys key).Nodup := by
  unfold insertKey
  split
  · exact h
  · next hn =>
    rw [← List.concat_eq_append]
    exact h.concat hn

theorem foldl_insertKey (added keys : List P) (h : keys.Nodup) :
    (added.foldl insertKey keys).Nodup ∧ ∀ k, k ∈ added.foldl insertKey keys ↔ k ∈ keys ∨ k ∈ added := by
  induction added generalizing keys with
  | nil => exact ⟨h, fun k => by simp⟩
  | cons key added ih =>
    obtain ⟨hn, hme⟩ := ih (insertKey keys key) (nodup_insertKey h)
    refine ⟨hn, ?_⟩
    intro k
    rw [List.foldl_cons, hme k, mem_insertKey, List.mem_cons, or_assoc]

theorem unpackKeys_spec (infos : List (ExtraInfo P)) :
    (unpackKeys infos).Nodup ∧ ∀ k, k ∈ unpackKeys infos ↔ ∃ info ∈ infos, k ∈ info.keys := by
  have hf : ∀ keys : List P, keys.Nodup →
      (infos.foldl (fun keys info => info.keys.foldl insertKey keys) keys).Nodup ∧
        ∀ k, k ∈ infos.foldl (fun keys info => info.keys.foldl insertKey keys) keys ↔
          k ∈ keys ∨ ∃ info ∈ infos, k ∈ info.keys := by
    induction infos with
    | nil => simp
    | cons info infos ih =>
      intro keys hk
      obtain ⟨hn, hme⟩ := foldl_insertKey info.keys keys hk
      obtain ⟨hn', hm'⟩ := ih _ hn
      refine ⟨hn', ?_⟩
      intro k
      rw [List.foldl_cons, hm' k, hme k]
      simp [or_assoc]
  unfold unpackKeys
  simpa using hf [] List.nodup_nil

theorem lists_foldl_insertKey {ι : Type} {share : Finset ι → P} {sets : Finset (Finset ι)} {keys own : List P}
    (h : Lists share sets keys) (ho : ∀ k ∈ own, ∃ T ∈ sets, share T = k) :
    Lists share sets (own.foldl insertKey keys) := by
  obtain ⟨hn, hme⟩ := foldl_insertKey own keys h.1
  refine ⟨hn, ?_⟩
  intro k
  rw [hme k, h.2 k]
  constructor
  · rintro (hk | hk)
    · exact hk
    · exact ho k hk
  · exact Or.inl

theorem lists_unpackKeys {ι : Type} [Fintype ι] [DecidableEq ι] {share : Finset ι → P} {n : Nat} {i : ι}
    {js : List ι} {infos : ι → ExtraInfo P} (hn : 2 ≤ n) (ho : OthersInOrder i js)
    (hl : ∀ j, Lists share (setsWith j n) (infos j).keys) :
    Lists share (Finset.univ.powersetCard n) (unpackKeys (js.map infos)) := by
  obtain ⟨hno, hme⟩ := unpackKeys_spec (js.map infos)
  refine ⟨hno, ?_⟩
  intro k
  rw [hme k]
  constructor
  · rintro ⟨info, hi, hk⟩
    obtain ⟨j, -, rfl⟩ := List.mem_map.mp hi
    obtain ⟨T, hT, hs⟩ := ((hl j).2 k).mp hk
    exact ⟨T, Finset.mem_of_mem_filter T hT, hs⟩
  · rintro ⟨T, hT, rfl⟩
    have hc := (Finset.mem_powersetCard.mp hT).2
    have ht : 1 < T.card := by omega
    obtain ⟨j, hj, hne⟩ := Finset.exists_mem_ne ht i
    refine ⟨infos j, List.mem_map.mpr ⟨j, (ho.2 j).mpr hne, rfl⟩, ?_⟩
    exact ((hl j).2 _).mpr ⟨T, mem_setsWith.mpr ⟨hj, hc⟩, rfl⟩

end

section
variable {ι : Type} [Fintype ι]

theorem collect_of_forall {α : Type} {f : ι → Option α} {Q : ι → α → Prop} (h : ∀ i, ∃ x, f i = some x ∧ Q i x) :
    ∃ g, collect f = some g ∧ ∀ i, Q i (g i) := by
  choose g hg hQ using h
  refine ⟨g, ?_, hQ⟩
  have hs : ∀ i, (f i).isSome := by
    intro i
    rw [hg i]
    rfl
  unfold collect
  rw [dif_pos hs]
  congr 1
  funext i
  simp [hg i]

theorem mapM_of_forall {α β : Type} {f : α → Option β} {g : α → β} (h : ∀ a, f a = some (g a)) (xs : List α) :
    xs.mapM f = some (xs.map g) := by
  induction xs with
  | nil => rfl
  | cons x xs ih => simp [h x, ih]

end

section
variable {S P : Type} [CommRing S] [AddCommGroup P] [Module S P] {env : KeyOps S P} {ι : Type}
  {seeds : ι → Seed S} {n : Nat} {i : ι}

theorem smul_derived {T : Finset ι} [DecidableEq ι] (hi : i ∉ T) :
    env.blind (seeds i).spend • derived env seeds T = derived env seeds (insert i T) := by
  unfold derived
  rw [Finset.prod_insert hi, mul_smul]

variable [Fintype ι] [DecidableEq ι] {m : Nat}

section
variable (h : KeysDiffer env seeds m)
include h

theorem KeysDiffer.injOn (hn : 0 < n) (sets : Finset (Finset ι))
    (hs : ∀ T ∈ sets, T.card = n) : Set.InjOn (derived env seeds) sets := by
  intro T hT T' hT' heq
  apply h.sets T T' _ _ heq
  · apply Finset.card_pos.mp
    rw [hs T hT]
    exact hn
  · apply Finset.card_pos.mp
    rw [hs T' hT']
    exact hn

theorem KeysDiffer.lists_derivations {keys : List P} (hke : Lists (derived env seeds) (setsWithout i n) keys) :
    Lists (derived env seeds) (setsWith i (n + 1)) (generateMultisigDerivations env (seeds i).spend keys) := by
  unfold generateMultisigDerivations
  constructor
  · apply hke.1.map_on
    intro k hk k' hk' heq
    obtain ⟨T, hT, rfl⟩ := (hke.2 k).mp hk
    obtain ⟨T', hT', rfl⟩ := (hke.2 k').mp hk'
    have hi := (mem_setsWithout.mp hT).1
    have hi' := (mem_setsWithout.mp hT').1
    rw [smul_derived hi, smul_derived hi'] at heq
    have hs := h.sets _ _ (Finset.insert_nonempty i T) (Finset.insert_nonempty i T') heq
    rw [← Finset.erase_insert hi, hs, Finset.erase_insert hi']
  · intro k
    rw [List.mem_map]
    constructor
    · rintro ⟨k', hk', rfl⟩
      obtain ⟨T, hT, rfl⟩ := (hke.2 k').mp hk'
      obtain ⟨hi, hc⟩ := mem_setsWithout.mp hT
      refine ⟨insert i T, mem_setsWith.mpr ⟨Finset.mem_insert_self i T, ?_⟩, (smul_derived hi).symm⟩
      rw [Finset.card_insert_of_notMem hi, hc]
    · rintro ⟨T, hT, rfl⟩
      obtain ⟨hi, hc⟩ := mem_setsWith.mp hT
      refine ⟨derived env seeds (T.erase i), (hke.2 _).mpr ⟨T.erase i, mem_setsWithout.mpr ⟨?_, ?_⟩, rfl⟩, ?_⟩
      · exact Finset.notMem_erase i T
      · rw [Finset.card_erase_of_mem hi, hc]
        rfl
      · rw [smul_derived (Finset.notMem_erase i T), Finset.insert_erase hi]

theorem KeysDiffer.lists_filter [DecidableEq P] (hn : 0 < n) {keys own : List P}
    (hk : Lists (derived env seeds) (Finset.univ.powersetCard n) keys)
    (ho : Lists (derived env seeds) (setsWith i n) own) :
    Lists (derived env seeds) (setsWithout i n) (keys.filter (· ∉ own)) := by
  have hinj := h.injOn hn (Finset.univ.powersetCard n) fun T hT => (Finset.mem_powersetCard.mp hT).2
  refine ⟨hk.1.filter _, ?_⟩
  intro k
  rw [List.mem_filter, hk.2 k, decide_eq_true_iff]
  constructor
  · rintro ⟨⟨T, hT, rfl⟩, hnot⟩
    refine ⟨T, mem_setsWithout.mpr ⟨?_, (Finset.mem_powersetCard.mp hT).2⟩, rfl⟩
    intro hi
    exact hnot ((ho.2 _).mpr ⟨T, mem_setsWith.mpr ⟨hi, (Finset.mem_powersetCard.mp hT).2⟩, rfl⟩)
  · rintro ⟨T, hT, rfl⟩
    obtain ⟨hi, hc⟩ := mem_setsWithout.mp hT
    have hT' : T ∈ Finset.univ.powersetCard n := Finset.mem_of_mem_filter T hT
    refine ⟨⟨T, hT', rfl⟩, ?_⟩
    intro hme
    obtain ⟨T', hwi, heq⟩ := (ho.2 _).mp hme
    rw [hinj (Finset.mem_of_mem_filter T' hwi) hT' heq] at hwi
    exact hi (mem_setsWith.mp hwi).1

theorem KeysDiffer.lists_spendKeys {js : List ι} (ho : OthersInOrder i js) :
    Lists (derived env seeds) (setsWithout i 1) (js.map fun j => publicKey env (env.blind (seeds j).spend)) := by
  have hs : ∀ j, publicKey env (env.blind (seeds j).spend) = derived env seeds {j} := by
    intro j
    unfold derived publicKey
    rw [Finset.prod_singleton]
  simp only [hs]
  constructor
  · apply ho.1.map
    intro j j' heq
    exact Finset.singleton_injective
      (h.sets _ _ (Finset.singleton_nonempty j) (Finset.singleton_nonempty j') heq)
  · intro k
    rw [List.mem_map]
    constructor
    · rintro ⟨j, hj, rfl⟩
      refine ⟨{j}, mem_setsWithout.mpr ⟨?_, Finset.card_singleton j⟩, rfl⟩
      rw [Finset.mem_singleton]
      exact Ne.symm ((ho.2 j).mp hj)
    · rintro ⟨T, hT, rfl⟩
      obtain ⟨hi, hc⟩ := mem_setsWithout.mp hT
      obtain ⟨j, rfl⟩ := Finset.card_eq_one.mp hc
      refine ⟨j, (ho.2 j).mpr ?_, rfl⟩
      rintro rfl
      exact hi (Finset.mem_singleton_self j)

end

end

section
variable {S P : Type} [CommRing S] [AddCommGroup P] [Module S P] (env : KeyOps S P) {ι : Type} [Fintype ι]
  (seeds : ι → Seed S)

/-- A wallet that has passed `r` rounds, and has no spend public key yet. -/
structure Underway (M r : Nat) (w : MultisigWallet S P) : Prop where
  view : w.viewSecretKey = ∑ j, env.blind (seeds j).view
  threshold : w.threshold = M
  signers : w.signers.length = Fintype.card ι
  notReady : w.spendPublicKey = 0
  rounds : w.roundsPassed = r

variable [DecidableEq ι]

structure Middle (M r : Nat) (i : ι) (x : MultisigWallet S P × Option (ExtraInfo P)) : Prop where
  underway : Underway env seeds M r x.1
  spend : x.1.spendSecretKey = (seeds i).spend
  derivations : Lists (derived env seeds) (setsWith i (r + 1)) x.1.derivations
  info : x.2 = some ⟨publicKey env (seeds i).spend, x.1.derivations⟩

/-- The secret keys, one for each set of `r + 1` signers, are there. -/
structure Established (M r : Nat) (i : ι) (x : MultisigWallet S P × Option (ExtraInfo P)) : Prop where
  underway : Underway env seeds M r x.1
  keys : Lists (sharedSecret env seeds) (setsWith i (r + 1)) x.1.multisigKeys
  spend : x.1.spendSecretKey = ∑ T ∈ setsWith i (r + 1), sharedSecret env seeds T
  info : x.2 = some ⟨publicKey env x.1.spendSecretKey, x.1.multisigKeys.map (publicKey env)⟩

def Reached (M r : Nat) (i : ι) (x : MultisigWallet S P × Option (ExtraInfo P)) : Prop :=
  if M + r = Fintype.card ι then Established env seeds M r i x else Middle env seeds M r i x

structure Final (n : Nat) (js : List ι) (i : ι) (w : MultisigWallet S P) : Prop where
  view : w.viewSecretKey = ∑ j, env.blind (seeds j).view
  keys : Lists (sharedSecret env seeds) (setsWith i n) w.multisigKeys
  spend : w.spendPublicKey = ∑ T ∈ Finset.univ.powersetCard n, publicKey env (sharedSecret env seeds T)
  signers : w.signers =
    env.sort (fun k k' => env.memcmp k k' != 0) (js.map (signerKey env seeds n) ++ [signerKey env seeds n i])

end

section
variable {S P : Type} [CommRing S] {env : KeyOps S P} {ι : Type} [Fintype ι] {seeds : ι → Seed S}

theorem viewSecretKey_eq [DecidableEq ι] {i : ι} {js : List ι} (ho : OthersInOrder i js) :
    generateMultisigViewSecretKey env (seeds i).view (js.map fun j => env.blind (seeds j).view) =
      ∑ j, env.blind (seeds j).view := by
  unfold generateMultisigViewSecretKey
  rw [foldl_add, add_sum_others ho fun j => env.blind (seeds j).view]

theorem roundsRequired_eq [AddCommGroup P] {M r : Nat} (hle : M ≤ Fintype.card ι) {w : MultisigWallet S P}
    (hw : Underway env seeds M r w) :
    multisigRoundsRequired w.signers.length w.threshold = some (Fintype.card ι - M + 1) := by
  unfold multisigRoundsRequired
  rw [hw.signers, hw.threshold, if_pos hle]

end

section
variable {S P : Type} [CommRing S] [AddCommGroup P] [Module S P] {env : KeyOps S P} {ι : Type} [Fintype ι]
  [DecidableEq ι] {seeds : ι → Seed S} {M n r : Nat} {i : ι} {js : List ι}

theorem KeysDiffer.secrets_injOn (h : KeysDiffer env seeds M) (hn : 0 < n) (sets : Finset (Finset ι))
    (hs : ∀ T ∈ sets, T.card = n) : Set.InjOn (sharedSecret env seeds) sets := by
  intro T hT T' hT' heq
  exact h.injOn hn sets hs hT hT' (h.hash heq)

theorem KeysDiffer.publics_injOn (h : KeysDiffer env seeds M) (hn : 0 < n) (sets : Finset (Finset ι))
    (hs : ∀ T ∈ sets, T.card = n) : Set.InjOn (fun T => publicKey env (sharedSecret env seeds T)) sets := by
  intro T hT T' hT' heq
  exact h.secrets_injOn hn sets hs hT hT' (h.base heq)

theorem head_insertionSort (hd : KeysDiffer env seeds n) (ho : OthersInOrder i js) :
    (insertionSort (fun k k' => env.memcmp k k' != 0)
      (js.map (signerKey env seeds n) ++ [signerKey env seeds n i])).head? = some (signerKey env seeds n i) := by
  have hn : (js.map (signerKey env seeds n) ++ [signerKey env seeds n i]).Nodup := by
    rw [← List.concat_eq_append]
    apply (ho.1.map hd.signer).concat
    intro hme
    obtain ⟨j, hj, heq⟩ := List.mem_map.mp hme
    exact (ho.2 j).mp hj (hd.signer heq)
  rw [insertionSort_of_all]
  · simp
  · apply hn.imp
    intro k k' hne
    rw [bne_iff_ne]
    intro hzero
    exact hne ((hd.memcmp k' k).mp hzero).symm

theorem KeysDiffer.secretKeys (h : KeysDiffer env seeds M) (hn : 0 < n) {derivations : List P}
    (hd : Lists (derived env seeds) (setsWith i n) derivations) :
    Lists (sharedSecret env seeds) (setsWith i n) (calculateMultisigKeys env derivations) ∧
      calculateMultisigSignerKey (calculateMultisigKeys env derivations) =
        ∑ T ∈ setsWith i n, sharedSecret env seeds T := by
  have hl : Lists (sharedSecret env seeds) (setsWith i n) (calculateMultisigKeys env derivations) :=
    hd.map h.hash
  refine ⟨hl, ?_⟩
  unfold calculateMultisigSignerKey
  rw [foldl_add, zero_add]
  exact hl.sum (h.secrets_injOn hn _ fun T hT => (mem_setsWith.mp hT).2)

omit [DecidableEq ι] in
theorem sets_nonempty (h : n ≤ Fintype.card ι) : (Finset.univ.powersetCard n : Finset (Finset ι)).Nonempty := by
  apply Finset.powersetCard_nonempty.mpr
  rwa [Finset.card_univ]

theorem OthersInOrder.ne_nil (ho : OthersInOrder i js) (hc : 2 ≤ Fintype.card ι) : js ≠ [] := by
  rintro rfl
  have hl := ho.length
  simp only [List.length_nil] at hl
  omega

theorem make_spec (hd : KeysDiffer env seeds n) (hM : 2 ≤ M) (ht : M < Fintype.card ι) (ho : OthersInOrder i js) :
    ∃ x, makeMultisig env (seeds i).spend (seeds i).view (js.map fun j => env.blind (seeds j).view)
        (js.map fun j => publicKey env (env.blind (seeds j).spend)) M = some x ∧ Reached env seeds M 1 i x := by
  have hl := ho.length
  have hde := hd.lists_derivations (hd.lists_spendKeys ho)
  have hv : generateMultisigViewSecretKey env (seeds i).view (js.map fun j => env.blind (seeds j).view) =
      ∑ j, env.blind (seeds j).view := viewSecretKey_eq ho
  obtain ⟨hk, hs⟩ := hd.secretKeys (Nat.succ_pos 1) hde
  unfold makeMultisig
  rw [if_neg]
  · simp only [List.length_map]
    rw [if_neg (by omega)]
    split
    · next ha =>
      refine ⟨_, rfl, ?_⟩
      rw [Reached, if_pos (by omega)]
      refine ⟨⟨hv, rfl, ?_, rfl, rfl⟩, hk, hs, rfl⟩
      rw [List.length_replicate]
      exact hl
    · next hmo =>
      refine ⟨_, rfl, ?_⟩
      rw [Reached, if_neg (by omega)]
      refine ⟨⟨hv, rfl, ?_, rfl, rfl⟩, rfl, hde, rfl⟩
      rw [List.length_replicate]
      exact hl
  · simp only [List.map_eq_nil_iff, ho.ne_nil (by omega), List.length_map, ne_eq, not_true_eq_false, false_or, not_not]
    omega

variable [DecidableEq P]

variable {ws : ι → MultisigWallet S P × Option (ExtraInfo P)}

theorem exchange_spec (hd : KeysDiffer env seeds n) (hM : 2 ≤ M) (hr : 1 ≤ r)
    (hro : M + r + 1 ≤ Fintype.card ι) (ho : OthersInOrder i js) (hs : ∀ j, Middle env seeds M r j (ws j)) :
    ∃ x, ((js.mapM fun j => (ws j).2).bind fun infos =>
        exchangeMultisigKeys env (ws i).1 (unpackKeys infos) (infos.map (·.signer))) = some x ∧
      Reached env seeds M (r + 1) i x := by
  have hi := mapM_of_forall (fun j => (hs j).info) js
  have hu := (hs i).underway
  have ha : Lists (derived env seeds) (Finset.univ.powersetCard (r + 1))
      (unpackKeys (js.map fun j => ⟨publicKey env (seeds j).spend, (ws j).1.derivations⟩)) := by
    apply lists_unpackKeys (Nat.succ_le_succ hr) ho
    intro j
    exact (hs j).derivations
  have hde := hd.lists_derivations (hd.lists_filter (Nat.succ_pos r) ha (hs i).derivations)
  obtain ⟨hk, hsu⟩ := hd.secretKeys (Nat.succ_pos (r + 1)) hde
  rw [hi, Option.bind_some]
  unfold exchangeMultisigKeys
  rw [if_neg, roundsRequired_eq (by omega) hu, Option.bind_some, hu.rounds, if_neg (by omega),
    (hs i).spend]
  · split
    · next hl =>
      refine ⟨_, rfl, ?_⟩
      rw [Reached, if_pos (by omega)]
      exact ⟨⟨hu.view, hu.threshold, hu.signers, rfl, rfl⟩, hk, hsu, rfl⟩
    · next hmo =>
      refine ⟨_, rfl, ?_⟩
      rw [Reached, if_neg (by omega)]
      exact ⟨⟨hu.view, hu.threshold, hu.signers, hu.notReady, rfl⟩, rfl, hde, rfl⟩
  · simp [ha.ne_nil (sets_nonempty (by omega)), ho.ne_nil (by omega), hu.notReady]

theorem final_spec (hd : KeysDiffer env seeds (r + 1)) (hM : 2 ≤ M) (hr : 1 ≤ r) (hro : M + r = Fintype.card ι)
    (ho : OthersInOrder i js) (hs : ∀ j, Established env seeds M r j (ws j)) :
    ∃ x, ((js.mapM fun j => (ws j).2).bind fun infos =>
        exchangeMultisigKeys env (ws i).1 (unpackKeys infos) (infos.map (·.signer))) = some x ∧
      Final env seeds (r + 1) js i x.1 := by
  have hn := mapM_of_forall (fun j => (hs j).info) js
  have hu := (hs i).underway
  have hln := ho.length
  have hc : ∀ T ∈ (Finset.univ.powersetCard (r + 1) : Finset (Finset ι)), T.card = r + 1 :=
    fun T hT => (Finset.mem_powersetCard.mp hT).2
  have ha : Lists (fun T => publicKey env (sharedSecret env seeds T)) (Finset.univ.powersetCard (r + 1))
      (unpackKeys (js.map fun j => ⟨publicKey env (ws j).1.spendSecretKey,
        (ws j).1.multisigKeys.map (publicKey env)⟩)) := by
    apply lists_unpackKeys (Nat.succ_le_succ hr) ho
    intro j
    exact (hs j).keys.map hd.base
  have hi : ∀ j, publicKey env (ws j).1.spendSecretKey = signerKey env seeds (r + 1) j := by
    intro j
    rw [(hs j).spend]
    rfl
  have hg : ((js.map fun j => (⟨publicKey env (ws j).1.spendSecretKey,
      (ws j).1.multisigKeys.map (publicKey env)⟩ : ExtraInfo P)).map (·.signer)) =
        js.map (signerKey env seeds (r + 1)) := by
    rw [List.map_map]
    apply List.map_congr_left
    intro j _
    exact hi j
  have hnw : signerKey env seeds (r + 1) i ∉ js.map (signerKey env seeds (r + 1)) := by
    intro hme
    obtain ⟨j, hj, heq⟩ := List.mem_map.mp hme
    exact (ho.2 j).mp hj (hd.signer heq)
  rw [hn, Option.bind_some]
  unfold exchangeMultisigKeys
  rw [if_neg, roundsRequired_eq (Nat.le.intro hro) hu, Option.bind_some, hu.rounds,
    if_pos (by omega), hg, hi i]
  · simp only [hnw, not_false_eq_true, if_true, List.length_append, List.length_map, List.length_singleton]
    rw [if_neg (by rw [hu.signers]; omega)]
    refine ⟨_, rfl, hu.view, (hs i).keys, ?_, rfl⟩
    have hmi : ∀ k ∈ (ws i).1.multisigKeys.map (publicKey env),
        ∃ T ∈ Finset.univ.powersetCard (r + 1), publicKey env (sharedSecret env seeds T) = k := by
      intro k hk
      obtain ⟨T, hT, hy⟩ := (((hs i).keys.map hd.base).2 k).mp hk
      exact ⟨T, Finset.mem_of_mem_filter T hT, hy⟩
    have hl := lists_foldl_insertKey ha hmi
    unfold generateMultisigSpendPublicKey
    rw [foldl_add, zero_add]
    exact hl.sum (hd.publics_injOn (Nat.succ_pos r) _ hc)
  · simp [ha.ne_nil (sets_nonempty (by omega)), ho.ne_nil (by omega), hu.notReady]

variable {order : Nat → ι → List ι}

theorem play_rounds (hd : KeysDiffer env seeds n) (hM : 2 ≤ M) (ho : ∀ r i, OthersInOrder i (order r i))
    (hr : M + r + 1 ≤ Fintype.card ι) :
    ∃ ws, play env seeds M order r = some ws ∧ ∀ i, Reached env seeds M (r + 1) i (ws i) := by
  induction r with
  | zero =>
    apply collect_of_forall
    intro i
    exact make_spec hd hM (by omega) (ho 0 i)
  | succ r ih =>
    obtain ⟨ws, hp, hs⟩ := ih (by omega)
    simp only [Reached, if_neg (by omega : M + (r + 1) ≠ Fintype.card ι)] at hs
    unfold play
    rw [hp]
    apply collect_of_forall
    intro i
    exact exchange_spec hd hM (Nat.succ_pos r) hr (ho (r + 1) i) hs

theorem play_final (hd : KeysDiffer env seeds (Fintype.card ι - M + 1)) (hM : 2 ≤ M)
    (ho : ∀ r i, OthersInOrder i (order r i)) (hl : M < Fintype.card ι) :
    ∃ ws, play env seeds M order (Fintype.card ι - M) = some ws ∧
      ∀ i, Final env seeds (Fintype.card ι - M + 1) (order (Fintype.card ι - M) i) i (ws i).1 := by
  obtain ⟨r, hr⟩ : ∃ r, Fintype.card ι - M = r + 1 := ⟨Fintype.card ι - M - 1, by omega⟩
  rw [hr] at hd ⊢
  obtain ⟨ws, hp, hs⟩ := play_rounds hd hM ho (by omega : M + r + 1 ≤ Fintype.card ι)
  simp only [Reached, if_pos (by omega : M + (r + 1) = Fintype.card ι)] at hs
  unfold play
  rw [hp]
  have hro : M + (r + 1) = Fintype.card ι := by omega
  have hf := fun i => final_spec hd hM (Nat.succ_pos r) hro (ho (r + 1) i) hs
  obtain ⟨ws', hc, hw'⟩ := collect_of_forall hf
  exact ⟨ws', hc, hw'⟩

/-! ## Agreement and threshold -/

end

section
variable {S P : Type} [CommRing S] [AddCommGroup P] [Module S P] (env : KeyOps S P) {ι : Type} [Fintype ι]
  [DecidableEq S]

def allSecrets (ws : ι → MultisigWallet S P) : Finset S := Finset.univ.biUnion fun i => (ws i).multisigKeys.toFinset

/-- The same keys, the spend key is the sum of all secret keys', `M` wallets hold these together,
and fewer do not. -/
structure KeysAgree (M : Nat) (ws : ι → MultisigWallet S P) : Prop where
  spend : ∀ i j, (ws i).spendPublicKey = (ws j).spendPublicKey
  view : ∀ i j, (ws i).viewSecretKey = (ws j).viewSecretKey
  sum : ∀ i, (ws i).spendPublicKey = ∑ s ∈ allSecrets ws, publicKey env s
  enough : ∀ A : Finset ι, M ≤ A.card → ∀ s ∈ allSecrets ws, ∃ i ∈ A, s ∈ (ws i).multisigKeys
  tooFew : ∀ A : Finset ι, A.card < M → ∃ s ∈ allSecrets ws, ∀ i ∈ A, s ∉ (ws i).multisigKeys

/-- The wallets also have the same ordered list of signers, where not all must sign. -/
structure Agreed (M : Nat) (ws : ι → MultisigWallet S P) : Prop where
  keys : KeysAgree env M ws
  signers : M < Fintype.card ι → ∀ i j, (ws i).signers = (ws j).signers

variable {env} [DecidableEq ι] {M n : Nat} {ws : ι → MultisigWallet S P}

/-- Keys shared by the sets of `N - M + 1` signers have the threshold `M`. -/
theorem keysAgree_of_holds {share : Finset ι → S} {view : S} (hn : M + n = Fintype.card ι + 1)
    (hh : SubsetShares.Holds share n fun i => (ws i).multisigKeys) (hd : Differ share n) (ho : 0 < n)
    (hv : ∀ i, (ws i).viewSecretKey = view)
    (hp : ∀ i, (ws i).spendPublicKey = ∑ T ∈ Finset.univ.powersetCard n, publicKey env (share T)) :
    KeysAgree env M ws := by
  have ha : allSecrets ws = (Finset.univ.powersetCard n).image share := hh.biUnion ho
  have hme : ∀ s, s ∈ allSecrets ws ↔ ∃ T : Finset ι, T.card = n ∧ share T = s := by
    intro s
    simp [ha]
  refine ⟨?_, ?_, ?_, ?_, ?_⟩
  · intro i j
    rw [hp i, hp j]
  · intro i j
    rw [hv i, hv j]
  · intro i
    rw [hp i, ha, Finset.sum_image]
    intro T hT T' hT' heq
    exact hd (Finset.mem_powersetCard.mp hT).2 (Finset.mem_powersetCard.mp hT').2 heq
  · intro A hA s hs
    obtain ⟨T, hT, rfl⟩ := (hme s).mp hs
    exact hh.covered (by omega) hT
  · intro A hA
    obtain ⟨T, hT, hms⟩ := hh.missed hd (by omega : A.card + n ≤ Fintype.card ι)
    exact ⟨share T, (hme _).mpr ⟨T, hT, rfl⟩, hms⟩

variable {seeds : ι → Seed S} {order : Nat → ι → List ι}

theorem Final.keysAgree (hd : KeysDiffer env seeds n) (hn : M + n = Fintype.card ι + 1)
    (hp : 0 < n) {js : ι → List ι} (h : ∀ i, Final env seeds n (js i) i (ws i)) : KeysAgree env M ws := by
  apply keysAgree_of_holds hn _ _ hp (fun i => (h i).view) fun i => (h i).spend
  · intro i s
    rw [(h i).keys.2 s]
    simp only [mem_setsWith, and_assoc]
  · intro T hT T' hT' heq
    apply hd.secrets_injOn hp {T, T'} _ (by simp) (by simp) heq
    intro U hU
    rcases Finset.mem_insert.mp hU with rfl | hU
    · exact hT
    · rw [Finset.mem_singleton.mp hU]
      exact hT'

variable [DecidableEq P]

theorem play_all (hd : KeysDiffer env seeds n) (hN : 2 ≤ Fintype.card ι)
    (ho : ∀ r i, OthersInOrder i (order r i)) : ∃ ws, play env seeds (Fintype.card ι) order 0 = some ws ∧
      KeysAgree env (Fintype.card ι) fun i => (ws i).1 := by
  have ha : ∀ i, ∃ x, makeMultisig env (seeds i).spend (seeds i).view
      ((order 0 i).map fun j => env.blind (seeds j).view)
      ((order 0 i).map fun j => publicKey env (env.blind (seeds j).spend)) (Fintype.card ι) = some x ∧
        x.1.multisigKeys = [env.blind (seeds i).spend] ∧ x.1.viewSecretKey = ∑ j, env.blind (seeds j).view ∧
        x.1.spendPublicKey = ∑ j, publicKey env (env.blind (seeds j).spend) := by
    intro i
    have hl := (ho 0 i).length
    have hne : order 0 i ≠ [] := by
      intro hni
      rw [hni, List.length_nil] at hl
      omega
    unfold makeMultisig
    rw [if_neg]
    · simp only [List.length_map]
      rw [if_pos hl.symm]
      refine ⟨_, rfl, rfl, viewSecretKey_eq (ho 0 i), ?_⟩
      rw [foldl_add, add_sum_others (ho 0 i) fun j => publicKey env (env.blind (seeds j).spend)]
    · simp only [List.map_eq_nil_iff, hne, List.length_map, ne_eq, not_true_eq_false, false_or, not_not]
      omega
  obtain ⟨ws, hp, hs⟩ := collect_of_forall ha
  refine ⟨ws, hp, ?_⟩
  have hh : SubsetShares.Holds (fun T => ∏ k ∈ T, env.blind (seeds k).spend) 1 fun i => (ws i).1.multisigKeys := by
    intro i s
    dsimp only
    rw [(hs i).1, List.mem_singleton]
    constructor
    · rintro rfl
      exact ⟨{i}, Finset.mem_singleton_self i, Finset.card_singleton i, Finset.prod_singleton _ _⟩
    · rintro ⟨T, hi, hT, rfl⟩
      obtain ⟨j, rfl⟩ := Finset.card_eq_one.mp hT
      rw [Finset.mem_singleton.mp hi, Finset.prod_singleton]
  apply keysAgree_of_holds rfl hh _ Nat.one_pos (fun i => (hs i).2.1)
  · intro i
    rw [(hs i).2.2, Finset.powersetCard_one, Finset.sum_map]
    apply Finset.sum_congr rfl
    intro j _
    simp
  · intro T hT T' hT' heq
    have hn : ∀ U : Finset ι, U.card = 1 → U.Nonempty := by
      intro U hU
      apply Finset.card_pos.mp
      omega
    apply hd.sets T T' (hn T hT) (hn T' hT')
    exact congrArg (· • env.base) heq

/-- All keys agree, whatever becomes of the order of the signers. -/
theorem play_keysAgree {order : Nat → ι → List ι} (hM : 2 ≤ M) (hle : M ≤ Fintype.card ι)
    (ho : ∀ r i, OthersInOrder i (order r i)) (hd : KeysDiffer env seeds (Fintype.card ι - M + 1)) :
    ∃ ws, play env seeds M order (Fintype.card ι - M) = some ws ∧ KeysAgree env M fun i => (ws i).1 := by
  rcases Nat.eq_or_lt_of_le hle with rfl | hl
  · rw [Nat.sub_self]
    exact play_all hd hM ho
  · obtain ⟨ws, hp, hs⟩ := play_final hd hM ho hl
    refine ⟨ws, hp, ?_⟩
    exact Final.keysAgree hd (by omega) (Nat.succ_pos _) hs

end

/-- Every honest run ends with the same keys and the threshold `M`. The comparison given to
`std::sort` is no strict weak order, so the same ordered list of signers for `M < N` is guaranteed
exactly when `M = N`. -/
theorem key_exchange_agrees {S P : Type} [CommRing S] [DecidableEq S] [AddCommGroup P] [Module S P] [DecidableEq P]
    {ι : Type} [Fintype ι] [DecidableEq ι] (env : KeyOps S P) {M : Nat} {seeds : ι → Seed S}
    {order : Nat → ι → List ι} (hM : 2 ≤ M) (hle : M ≤ Fintype.card ι)
    (horder : ∀ r i, OthersInOrder i (order r i)) (hdiffer : KeysDiffer env seeds (Fintype.card ι - M + 1)) :
    (∀ sort, Sorts sort → ∃ ws, play { env with sort } seeds M order (Fintype.card ι - M) = some ws ∧
      KeysAgree env M fun i => (ws i).1) ∧
    ((∀ sort, Sorts sort → ∃ ws, play { env with sort } seeds M order (Fintype.card ι - M) = some ws ∧
      Agreed env M fun i => (ws i).1) ↔ M = Fintype.card ι) := by
  have ho : ∀ sort, KeysDiffer { env with sort } seeds (Fintype.card ι - M + 1) := fun _ =>
    ⟨hdiffer.sets, hdiffer.signer, hdiffer.hash, hdiffer.base, hdiffer.memcmp⟩
  have hk : ∀ sort, ∃ ws, play { env with sort } seeds M order (Fintype.card ι - M) = some ws ∧
      KeysAgree env M fun i => (ws i).1 := by
    intro sort
    obtain ⟨ws, hp, hs⟩ := play_keysAgree hM hle horder (ho sort)
    exact ⟨ws, hp, hs.spend, hs.view, hs.sum, hs.enough, hs.tooFew⟩
  refine ⟨fun sort _ => hk sort, ?_, ?_⟩
  · intro ha
    by_contra hn
    have hl : M < Fintype.card ι := Nat.lt_of_le_of_ne hle hn
    obtain ⟨ws, hp, hs⟩ := ha insertionSort sorts_insertionSort
    obtain ⟨ws', hp', hf⟩ := play_final (ho insertionSort) hM horder hl
    cases hp.symm.trans hp'
    obtain ⟨i, j, hij⟩ := Fintype.one_lt_card_iff.mp (by omega : 1 < Fintype.card ι)
    have hh := congrArg List.head? (hs.signers hl i j)
    rw [(hf i).signers, (hf j).signers] at hh
    have hi := head_insertionSort (ho insertionSort) (horder (Fintype.card ι - M) i)
    have hj := head_insertionSort (ho insertionSort) (horder (Fintype.card ι - M) j)
    exact hij (hdiffer.signer (Option.some.inj (hi.symm.trans (hh.trans hj))))
  · rintro rfl sort -
    obtain ⟨ws, hp, hs⟩ := hk sort
    exact ⟨ws, hp, hs, fun hl => absurd hl (Nat.lt_irrefl _)⟩

namespace Sample

def integerKeys : KeyOps Int Int where
  blind s := s
  hashKey k := k
  base := 1
  nullPkey := 0
  memcmp k k' := k - k'
  sort := insertionSort

def threeSeeds (i : Fin 3) : Seed Int := if i = 0 then ⟨2, 7⟩ else if i = 1 then ⟨3, 11⟩ else ⟨5, 13⟩

def ascending (_ : Nat) (i : Fin 3) : List (Fin 3) := (List.finRange 3).filter (· ≠ i)

end Sample

open Sample

theorem othersInOrder_ascending (r : Nat) (i : Fin 3) : OthersInOrder i (ascending r i) := by
  unfold ascending OthersInOrder
  constructor
  · exact (List.nodup_finRange 3).filter _
  · intro j
    simp

theorem keysDiffer_integerKeys : KeysDiffer integerKeys threeSeeds 2 := by
  have hb : ∀ s : Int, publicKey integerKeys s = s := by
    intro s
    simp [publicKey, integerKeys]
  refine ⟨?_, ?_, fun _ _ h => h, ?_, ?_⟩
  · decide +kernel
  · intro i j hi
    revert i j
    decide +kernel
  · intro s s' h
    rw [hb, hb] at h
    exact h
  · intro k k'
    exact Int.sub_eq_zero

/-- Two of three: the wallets agree on the spend key, which is the sum of the three secret keys. -/
theorem key_exchange_agrees_two_of_three :
    ∃ ws, play integerKeys threeSeeds 2 ascending 1 = some ws ∧ (KeysAgree integerKeys 2 fun i => (ws i).1) ∧
      ∀ i, (ws i).1.spendPublicKey = 6 + 10 + 15 := by
  obtain ⟨ws, hp, hs⟩ := (key_exchange_agrees integerKeys (Nat.le_refl 2) (by decide)
    othersInOrder_ascending keysDiffer_integerKeys).1 insertionSort sorts_insertionSort
  refine ⟨ws, hp, hs, ?_⟩
  have hf : (play integerKeys threeSeeds 2 ascending 1).map (fun ws => (ws 0).1.spendPublicKey) =
      some (6 + 10 + 15) := by decide +kernel
  intro i
  rw [hs.spend i 0]
  have hp' : play integerKeys threeSeeds 2 ascending 1 = some ws := hp
  rw [hp'] at hf
  exact Option.some.inj hf

/-- Each wallet has its own signer key first. -/
theorem signers_in_different_order :
    KeysDiffer integerKeys threeSeeds 2 ∧ (∀ r i, OthersInOrder i (ascending r i)) ∧ Sorts integerKeys.sort ∧
      (play integerKeys threeSeeds 2 ascending 1).map
          (fun ws => ((ws 0).1.signers, (ws 1).1.signers, (ws 2).1.signers)) =
        some ([16, 25, 21], [21, 25, 16], [25, 21, 16]) :=
  ⟨keysDiffer_integerKeys, othersInOrder_ascending, sorts_insertionSort, by decide +kernel⟩

end Gyro.Wallet.Multisig
