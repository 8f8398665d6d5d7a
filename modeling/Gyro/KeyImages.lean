import Gyro.PoolAccounting

/-!
# The key images of the pool

The map in memory is the index of the records by key image as long as no call loses
writes it has answered in memory.
-/

namespace Gyro

open Keyed InvertedIndex Runs List

namespace TxPool

/-- Distinct keys, key images that go with the hash, and of two transactions with a common one at
least one came in a block. -/
structure RecordsOk (imagesOf : Hash → List PublicKey) (stored : List PooledTx) : Prop where
  keys : (stored.map PooledTx.id).Nodup
  genuine : ∀ r ∈ stored, r.keyImages = imagesOf r.id ∧ r.keyImages.Nodup
  single : ∀ r ∈ stored, ∀ r' ∈ stored, r.keptByBlock = false → r'.keptByBlock = false →
    ∀ k ∈ r.keyImages, k ∈ r'.keyImages → r.id = r'.id

def imageIndex (stored : List PooledTx) : Index PublicKey Hash :=
  index PooledTx.id PooledTx.keyImages stored

structure ExactImages (imagesOf : Hash → List PublicKey) (p : TxPool) : Prop where
  records : RecordsOk imagesOf p.stored
  images : p.spentKeyImages = imageIndex p.stored

section
variable {imagesOf : Hash → List PublicKey} {p : TxPool} {db : DbThrows} {stored : List PooledTx}
  {r : PooledTx} {rs : List PooledTx} {id : Hash} {relay : RelayMethod} {k : PublicKey}
  {ks : List PublicKey} {images images' : Index PublicKey Hash}

/-! ## The two loops over the inputs -/

theorem insertKeyImages_true (h : insertKeyImages db stored id relay ks images = (true, images')) :
    images' = images.add id ks ∧ (relay ≠ .block → ∀ k ∈ ks, images.owners k ⊆ {id}) := by
  induction ks generalizing images with
  | nil =>
    cases h
    exact ⟨add_nil.symm, by simp⟩
  | cons k ks ih =>
    unfold insertKeyImages at h
    by_cases hs : relay ≠ .block ∧ ¬ (images.owners k = ∅ ∨ images.owners k = {id})
    · rw [if_pos hs] at h
      cases h
    · rw [if_neg hs] at h
      split at h
      · obtain ⟨ha, hu⟩ := ih h
        refine ⟨ha.trans add_add, ?_⟩
        intro hr k' hk'
        rcases mem_cons.mp hk' with rfl | hk'
        · rw [Finset.subset_singleton_iff]
          by_contra hnot
          exact hs ⟨hr, hnot⟩
        · intro j hj
          exact hu hr k' hk' (mem_owners_add.mpr (.inl hj))
      · cases h

theorem insertKeyImages_new (hn : ks.Nodup) (hnw : ∀ k ∈ ks, id ∉ images.owners k)
    (hu : relay ≠ .block → ∀ k ∈ ks, images.owners k = ∅) :
    insertKeyImages db stored id relay ks images = (true, images.add id ks) := by
  induction ks generalizing images with
  | nil => simp [insertKeyImages]
  | cons k ks ih =>
    rw [nodup_cons] at hn
    have hf : ¬ (relay ≠ .block ∧ ¬ (images.owners k = ∅ ∨ images.owners k = {id})) := by
      rintro ⟨hr, hnot⟩
      exact hnot (.inl (hu hr k mem_cons_self))
    unfold insertKeyImages
    rw [if_neg hf, if_pos (.inl (hnw k mem_cons_self))]
    have ho : ∀ k' ∈ ks, (images.add id [k]).owners k' = images.owners k' := by
      intro k' hk'
      have hne : k' ≠ k := by
        rintro rfl
        exact hn.1 hk'
      simp [Index.owners, Index.add, hne]
    apply (ih hn.2 _ _).trans (congrArg (Prod.mk true) add_add)
    · intro k' hk'
      rw [ho k' hk']
      exact hnw k' (mem_cons_of_mem _ hk')
    · intro hr k' hk'
      rw [ho k' hk']
      exact hu hr k' (mem_cons_of_mem _ hk')

theorem insertKeyImages_there (ht : ∀ k ∈ ks, ∃ owners, images k = some owners ∧ id ∈ owners) :
    (insertKeyImages db stored id relay ks images).2 = images := by
  induction ks with
  | nil => rfl
  | cons k ks ih =>
    obtain ⟨owners, hk, hi⟩ := ht k mem_cons_self
    have ho : images.owners k = owners := by simp [Index.owners, hk]
    have ha : images.add id [k] = images := by
      funext j
      by_cases hj : j = k
      · simp [Index.add, hj, ho, hi, hk]
      · simp [Index.add, hj]
    have hn : (fun j => if j = k then some (images.owners k) else images j) = images := by
      funext j
      by_cases hj : j = k
      · simp [hj, ho, hk]
      · simp [hj]
    unfold insertKeyImages
    dsimp only
    split
    · exact hn
    · rw [ha]
      split
      · exact ih fun k' hk' => ht k' (mem_cons_of_mem _ hk')
      · rfl

theorem removeKeyImages_eq_drop (hn : ks.Nodup) (ht : ∀ k ∈ ks, id ∈ images.owners k) :
    removeKeyImages id ks images = images.drop id ks := by
  induction ks generalizing images with
  | nil => exact drop_nil.symm
  | cons k ks ih =>
    rw [nodup_cons] at hn
    unfold removeKeyImages
    rw [if_pos (ht k mem_cons_self)]
    apply (ih hn.2 _).trans drop_drop
    intro k' hk'
    have hne : k' ∉ [k] := by
      rw [mem_singleton]
      rintro rfl
      exact hn.1 hk'
    rw [owners_drop_of_notMem hne]
    exact ht k' (mem_cons_of_mem _ hk')

theorem mem_owners_imageIndex : id ∈ (imageIndex stored).owners k ↔ ∃ r ∈ stored, r.id = id ∧ k ∈ r.keyImages := by
  rw [imageIndex, owners_index, mem_ownersOf]

theorem RecordsOk.sublist (h : RecordsOk imagesOf stored) (hs : rs.Sublist stored) : RecordsOk imagesOf rs := by
  constructor
  · exact h.keys.sublist (hs.map _)
  · intro r hr
    exact h.genuine r (hs.subset hr)
  · intro r hr r' hr'
    exact h.single r (hs.subset hr) r' (hs.subset hr')

theorem ExactImages.removeRecord (h : p.ExactImages imagesOf) (hr : r ∈ p.stored) (weight : UInt64) :
    (p.removeRecord r weight).ExactImages imagesOf := by
  have hf : find PooledTx.id p.stored r.id = some r := (find_eq_some_iff h.records.keys).mpr ⟨hr, rfl⟩
  constructor
  · exact h.records.sublist filter_sublist
  · change removeKeyImages r.id r.keyImages p.spentKeyImages = imageIndex (without _ p.stored r.id)
    rw [removeKeyImages_eq_drop (h.records.genuine r hr).2, h.images]
    · exact (index_without h.records.keys hf).symm
    · intro k hk
      rw [h.images, mem_owners_imageIndex]
      exact ⟨r, hr, rfl, hk⟩

theorem ExactImages.dropRecords (h : p.ExactImages imagesOf) (hr : ∀ r ∈ rs, r ∈ p.stored)
    (hk : (rs.map PooledTx.id).Nodup) (weight : PooledTx → UInt64) :
    (p.dropRecords weight rs).ExactImages imagesOf := by
  induction rs generalizing p with
  | nil => exact h
  | cons r rs ih =>
    have hke := mem_without_tail hk hr
    rw [map_cons, nodup_cons] at hk
    exact ih (h.removeRecord (hr r mem_cons_self) _) hke hk.2

theorem ExactImages.of_eq {p' : TxPool} (h : p.ExactImages imagesOf) (hs : p'.stored = p.stored)
    (hi : p'.spentKeyImages = p.spentKeyImages) : p'.ExactImages imagesOf := by
  constructor
  · rw [hs]
    exact h.records
  · rw [hi, hs]
    exact h.images

theorem ExactImages.commit {after p' : TxPool} (ha : after.ExactImages imagesOf)
    (hc : db.commit = false ∨ after.stored = p.stored) (hs : p'.stored = TxPool.commit db p.stored after.stored)
    (hi : p'.spentKeyImages = after.spentKeyImages) : p'.ExactImages imagesOf := by
  apply ha.of_eq _ hi
  rw [hs, TxPool.commit]
  rcases hc with hc | hsa
  · simp [hc]
  · simp [hsa]

theorem ExactImages.takeTx (h : p.ExactImages imagesOf) (hc : db.commit = false ∨ p.lookup id = none) :
    (p.takeTx db id).2.ExactImages imagesOf := by
  unfold TxPool.takeTx
  split
  · exact h
  · split
    · exact h
    · rename_i r hr
      split
      · exact h
      · obtain ⟨hme, _⟩ := find_some_mem hr
        rcases hc with hc | hn
        · exact (h.removeRecord hme r.info.weight).commit (.inl hc) rfl rfl
        · rw [hr] at hn
          cases hn

variable {env : PoolEnv}

theorem ExactImages.removeStuckTransactions (h : p.ExactImages imagesOf) (hc : db.commit = false ∨ p.stuck env = []) :
    (p.removeStuckTransactions env db).ExactImages imagesOf := by
  have hs : (p.stuckGone env db).Sublist p.stored := filter_sublist.trans filter_sublist
  have hd := h.dropRecords (fun r hr => hs.subset hr) (h.records.keys.sublist (hs.map _))
    (·.info.weight)
  have hc' : db.commit = false ∨
      (p.dropRecords (·.info.weight) (p.stuckGone env db)).stored = p.stored := by
    rcases hc with hc | hn
    · exact .inl hc
    · simp [stuckGone, hn, TxPool.dropRecords]
  rw [removeStuckTransactions_eq]
  exact hd.commit hc' rfl rfl

theorem ExactImages.validate {version : UInt8} (h : p.ExactImages imagesOf)
    (hc : db.commit = false ∨ p.invalid env version = []) : (p.validate env db version).ExactImages imagesOf := by
  have hu : (p.invalidGone env db version).Sublist p.stored :=
    filter_sublist.trans filter_sublist
  obtain ⟨q, hq⟩ : ∃ q : TxPool,
      q = { p with weight := (p.stored.map (·.info.weight)).foldl (· + ·) 0 } := ⟨_, rfl⟩
  have hs : q.stored = p.stored := by rw [hq]
  have hi : q.spentKeyImages = p.spentKeyImages := by rw [hq]
  have hd := (h.of_eq hs hi).dropRecords
    (fun r hr => hs ▸ hu.subset hr) (h.records.keys.sublist (hu.map _)) (·.tx.weight)
  have hc' : db.commit = false ∨
      (q.dropRecords (·.tx.weight) (p.invalidGone env db version)).stored = p.stored := by
    rcases hc with hc | hn
    · exact .inl hc
    · simp [invalidGone, hn, TxPool.dropRecords, hs]
  rw [validate_eq env db version p q hq]
  exact hd.commit hc' rfl rfl

structure DbQuiet (db : DbThrows) : Prop where
  read : ∀ id, db.read id = false
  write : ∀ id, db.write id = false
  commit : db.commit = false

structure SortedSound (p : TxPool) : Prop where
  once : (p.sorted.map (·.id)).Nodup
  found : ∀ e ∈ p.sorted, e.id ∈ p.stored.map PooledTx.id

theorem pruneLoop_within {bytes : UInt64} {todo : List SortedEntry} (h : p.weight ≤ bytes) :
    pruneLoop db bytes todo p = (true, p) := by
  cases todo with
  | nil => rfl
  | cons e todo =>
    unfold pruneLoop
    rw [if_pos h]

theorem SortedSound.erase (h : p.SortedSound) {e : SortedEntry} (he : e ∈ p.sorted) (hi : r.id = e.id)
    (weight : UInt64) : { p.removeRecord r weight with sorted := p.sorted.erase e }.SortedSound := by
  rw [erase_eq_without h.once he]
  constructor
  · exact nodup_without h.once
  · intro e' he'
    obtain ⟨hme, hn⟩ := mem_without.mp he'
    change e'.id ∈ (without PooledTx.id p.stored r.id).map PooledTx.id
    rw [mem_map_without, hi]
    exact ⟨h.found e' hme, hn⟩

theorem ExactImages.prune {bytes : UInt64} (h : p.ExactImages imagesOf)
    (hf : p.weight ≤ (if bytes = 0 then p.maxWeight else bytes) ∨ DbQuiet db ∧ p.SortedSound) :
    (p.prune db bytes).ExactImages imagesOf := by
  unfold TxPool.prune
  rcases hf with hwi | ⟨hu, hs⟩
  · simp only [pruneLoop_within hwi, if_true]
    exact h.commit (.inr rfl) rfl rfl
  · have hn : p.sorted.tail.reverse.Nodup :=
      nodup_reverse.mpr (hs.once.of_map.sublist (tail_sublist _))
    have hin : ∀ e ∈ p.sorted.tail.reverse, e ∈ p.sorted := by
      intro e he
      exact mem_of_mem_tail (mem_reverse.mp he)
    have hl := @pruneLoop_rule p db (if bytes = 0 then p.maxWeight else bytes) _
      (fun q => q.ExactImages imagesOf ∧ q.SortedSound) hu.read hu.write ?_ ?_ hn hin
      ⟨h, hs⟩
    · obtain ⟨hd, hx, _⟩ := hl
      simp only [hd, if_true]
      exact hx.commit (.inl hu.commit) rfl rfl
    · rintro q e ⟨hx, hq⟩ he
      obtain ⟨r, hr, hi⟩ := mem_map.mp (hq.found e he)
      exact ⟨r, (find_eq_some_iff hx.records.keys).mpr ⟨hr, hi⟩⟩
    · rintro q e r ⟨hx, hq⟩ he hr _
      obtain ⟨hme, hi⟩ := find_some_mem hr
      exact ⟨(hx.removeRecord hme r.info.weight).of_eq rfl rfl, hq.erase he hi _⟩

section
variable {env : PoolEnv} {version : UInt8} {tx : Transaction} {recorded : RelayMethod} {fee last : UInt64}

theorem owners_eq_empty (h : p.ExactImages imagesOf) (hf : p.lookup tx.hash = none)
    (hs : haveTxKeyimgesAsSpent db p tx = false) (hk : k ∈ tx.keyImages) : p.spentKeyImages.owners k = ∅ := by
  have ho : haveTxKeyimgAsSpent db p tx.hash k = false := by
    simp only [haveTxKeyimgesAsSpent, any_eq_false, Bool.not_eq_true] at hs
    exact hs k hk
  have hnot : tx.hash ∉ p.spentKeyImages.owners k := by
    rw [h.images, mem_owners_imageIndex]
    rintro ⟨r, hr, hi, _⟩
    exact find_eq_none_iff.mp hf (hi ▸ mem_map_of_mem hr)
  unfold haveTxKeyimgAsSpent at ho
  unfold Index.owners at hnot ⊢
  cases how : p.spentKeyImages k with
  | none => rfl
  | some owners =>
    rw [how] at ho hnot
    by_contra hn
    simp only [Option.getD_some] at hn hnot
    simp only [hn, if_false] at ho
    by_cases hl : owners = {tx.hash}
    · rw [hl] at hnot
      exact hnot (Finset.mem_singleton_self _)
    · simp [hl] at ho

theorem ExactImages.insert_there (h : p.ExactImages imagesOf) (hg : tx.keyImages = imagesOf tx.hash)
    (ht : (p.lookup tx.hash).isSome = true) :
    (insertKeyImages db p.stored tx.hash recorded tx.keyImages p.spentKeyImages).2 = p.spentKeyImages := by
  obtain ⟨r, hr⟩ := Option.isSome_iff_exists.mp ht
  obtain ⟨hme, hi⟩ := find_some_mem hr
  have him : r.keyImages = tx.keyImages := by
    rw [(h.records.genuine r hme).1, hi, hg]
  apply insertKeyImages_there
  intro k hk
  have ho : tx.hash ∈ p.spentKeyImages.owners k := by
    rw [h.images, mem_owners_imageIndex]
    exact ⟨r, hme, hi, him ▸ hk⟩
  cases how : p.spentKeyImages k with
  | none =>
    simp [Index.owners, how] at ho
  | some owners =>
    refine ⟨owners, rfl, ?_⟩
    simpa [Index.owners, how] using ho

theorem RecordsOk.replace (h : RecordsOk imagesOf stored) (hg : r.keyImages = imagesOf r.id) (hn : r.keyImages.Nodup)
    (ha : r.keptByBlock = false → ∀ k ∈ r.keyImages, ∀ r' ∈ stored, k ∈ r'.keyImages → r'.id = r.id) :
    RecordsOk imagesOf (without PooledTx.id stored r.id ++ [r]) := by
  constructor
  · apply nodup_concat (nodup_without h.keys)
    rw [mem_map_without]
    exact fun hr => hr.2 rfl
  · intro r' hr'
    rcases mem_append.mp hr' with hr' | hr'
    · exact h.genuine r' (mem_without.mp hr').1
    · rw [mem_singleton.mp hr']
      exact ⟨hg, hn⟩
  · intro r₁ hr₁ r₂ hr₂ he₁ he₂ k hk₁ hk₂
    rcases mem_append.mp hr₁ with hr₁ | hr₁
    · obtain ⟨hr₁, hne⟩ := mem_without.mp hr₁
      rcases mem_append.mp hr₂ with hr₂ | hr₂
      · exact h.single r₁ hr₁ r₂ (mem_without.mp hr₂).1 he₁ he₂ k hk₁ hk₂
      · rw [mem_singleton.mp hr₂] at he₂ hk₂ ⊢
        exact ha he₂ k hk₂ r₁ hr₁ hk₁
    · rw [mem_singleton.mp hr₁] at he₁ hk₁ ⊢
      rcases mem_append.mp hr₂ with hr₂ | hr₂
      · exact (ha he₁ k hk₁ r₂ (mem_without.mp hr₂).1 hk₂).symm
      · rw [mem_singleton.mp hr₂]

theorem ExactImages.withTx (h : p.ExactImages imagesOf) (hg : tx.keyImages = imagesOf tx.hash) (hn : tx.keyImages.Nodup)
    (hi : insertKeyImages db p.stored tx.hash recorded tx.keyImages p.spentKeyImages = (true, images))
    (hc : (p.lookup tx.hash).isSome = true ∨ db.commit = false) :
    (p.withTx env db tx recorded fee last images).ExactImages imagesOf := by
  by_cases ht : db.commit = true
  · have hh : (p.lookup tx.hash).isSome = true := by
      rcases hc with hh | hc
      · exact hh
      · rw [ht] at hc
        cases hc
    have him := @ExactImages.insert_there imagesOf p db tx recorded h hg hh
    rw [hi] at him
    apply h.of_eq _ him
    simp [TxPool.withTx, TxPool.commit, ht]
  · have hs : (p.withTx env db tx recorded fee last images).stored =
        without PooledTx.id p.stored tx.hash ++ [newRecord env tx recorded fee last] := by
      simp [TxPool.withTx, TxPool.commit, ht]
    obtain ⟨ha, hl⟩ := insertKeyImages_true hi
    constructor
    · rw [hs]
      apply @RecordsOk.replace imagesOf p.stored (newRecord env tx recorded fee last) h.records hg hn
      intro hke k hk r' hr' hk'
      have hre : recorded ≠ .block := by
        rintro rfl
        cases hke
      have ho : r'.id ∈ p.spentKeyImages.owners k := by
        rw [h.images, mem_owners_imageIndex]
        exact ⟨r', hr', rfl, hk'⟩
      exact Finset.mem_singleton.mp (hl hre k hk ho)
    · rw [hs]
      rw [ha, h.images]
      refine (@index_replace _ _ _ _ _ PooledTx.id PooledTx.keyImages p.stored
        (newRecord env tx recorded fee last) h.records.keys ?_).symm
      intro r hr
      obtain ⟨hme, hd⟩ := find_some_mem hr
      rw [(h.records.genuine r hme).1, hd]
      exact hg.symm

theorem SortedSound.withTx (h : p.SortedSound) (hf : p.lookup tx.hash = none) (hc : db.commit = false) :
    (p.withTx env db tx recorded fee last images).SortedSound := by
  have hs : (p.withTx env db tx recorded fee last images).stored =
      p.stored ++ [newRecord env tx recorded fee last] := by
    simp [TxPool.withTx, TxPool.commit, hc, without_of_find_none hf]
  constructor
  · apply nodup_insertSorted h.once
    intro hi
    obtain ⟨e, he, heq⟩ := mem_map.mp hi
    have hn := h.found e he
    rw [heq] at hn
    exact find_eq_none_iff.mp hf hn
  · intro e he
    rw [hs, map_append, mem_append]
    rcases mem_insertSorted.mp (mem_map_of_mem he) with hi | hi
    · obtain ⟨e', he', heq⟩ := mem_map.mp hi
      exact .inl (heq ▸ h.found e' he')
    · rw [hi]
      simp [newRecord, sortedEntry, PooledTx.id]

theorem ExactImages.addTx {pruneDb : DbThrows} (h : p.ExactImages imagesOf)
    (hg : tx.keyImages = imagesOf tx.hash) (hn : tx.keyImages.Nodup)
    (hs : (p.lookup tx.hash).isSome = true ∨ db.write tx.hash = false ∧ db.commit = false)
    (hp : p.weight + tx.weight ≤ p.maxWeight ∨ p.lookup tx.hash = none ∧ DbQuiet pruneDb ∧ p.SortedSound) :
    (p.addTx env db pruneDb version tx relay).2.ExactImages imagesOf := by
  have hl : (if p.maxWeight = 0 then p.maxWeight else p.maxWeight) = p.maxWeight := ite_self _
  have ho := @addTx_outcome p env db version tx relay pruneDb
  generalize (p.addTx env db pruneDb version tx relay).2 = q at ho ⊢
  cases ho with
  | refused => exact h
  | failed recorded inserted images hb hse hi hh =>
    by_cases ht : (p.lookup tx.hash).isSome = true
    · have him := @ExactImages.insert_there imagesOf p db tx recorded h hg ht
      rw [hi] at him
      exact h.of_eq rfl him
    · -- the key images of a new transaction go in, and so does the record
      obtain ⟨hwr, _⟩ := hs.resolve_left ht
      have hf : p.lookup tx.hash = none := Option.not_isSome_iff_eq_none.mp ht
      have hnw : insertKeyImages db p.stored tx.hash recorded tx.keyImages p.spentKeyImages =
          (true, p.spentKeyImages.add tx.hash tx.keyImages) := by
        apply insertKeyImages_new hn
        · intro k hk
          rw [h.images, mem_owners_imageIndex]
          rintro ⟨r, hr, hd, _⟩
          exact find_eq_none_iff.mp hf (hd ▸ mem_map_of_mem hr)
        · intro hre k hk
          rcases hse with hr' | hse
          · exact (hre (hb.mpr hr')).elim
          · exact owners_eq_empty h hf hse hk
      rw [hnw] at hi
      cases hi
      simp [hwr, ht] at hh
  | there ht =>
    have hq : { p with weight := p.weight + tx.weight }.ExactImages imagesOf := h.of_eq rfl rfl
    rcases hp with hwi | ⟨hf, _⟩
    · exact hq.prune (.inl (le_of_le_of_eq hwi hl.symm))
    · rw [hf] at ht
      cases ht
  | stored recorded fee last images hb ha hi hwr =>
    have hq := @ExactImages.withTx imagesOf p db images env tx recorded fee last h hg hn hi
      (hs.imp_right And.right)
    rcases hp with hwi | ⟨hf, hu, hso⟩
    · exact hq.prune (.inl (le_of_le_of_eq hwi hl.symm))
    · have hc : db.commit = false := by
        rcases hs with ht | ⟨_, hc⟩
        · rw [hf] at ht
          cases ht
        · exact hc
      exact hq.prune (.inr ⟨hu, hso.withTx hf hc⟩)

end

variable {method : RelayMethod}

theorem keptByBlock_of_relayed {ids : List Hash}
    (h : (relayed env db ids method r).keptByBlock = false) : r.keptByBlock = false := by
  by_contra hk
  have hb : r.info.relayMethod = .block := by
    simpa [PooledTx.keptByBlock] using hk
  unfold relayed at h
  split at h
  · cases method <;> simp [PooledTx.keptByBlock, RelayMethod.upgrade, RelayMethod.rank, hb] at h
  · exact hk h

theorem ExactImages.setRelayed {ids : List Hash} (h : p.ExactImages imagesOf) :
    (p.setRelayed env db ids method).ExactImages imagesOf := by
  by_cases ht : db.commit = true
  · have hs : (p.setRelayed env db ids method).stored = p.stored := by
      simp [TxPool.setRelayed, TxPool.commit, ht]
    exact h.of_eq hs rfl
  · have hs : (p.setRelayed env db ids method).stored = p.stored.map (relayed env db ids method) := by
      simp [TxPool.setRelayed, TxPool.commit, ht]
    have hi : ∀ r, (relayed env db ids method r).id = r.id := fun r => congrArg Transaction.hash (relayed_tx r)
    have him : ∀ r, (relayed env db ids method r).keyImages = r.keyImages :=
      fun r => congrArg Transaction.keyImages (relayed_tx r)
    constructor
    · rw [hs]
      constructor
      · rw [map_id_relayed]
        exact h.records.keys
      · intro r' hr'
        obtain ⟨r, hr, rfl⟩ := mem_map.mp hr'
        rw [him, hi]
        exact h.records.genuine r hr
      · intro r₁' hr₁' r₂' hr₂' he₁ he₂ k hk₁ hk₂
        obtain ⟨r₁, hr₁, rfl⟩ := mem_map.mp hr₁'
        obtain ⟨r₂, hr₂, rfl⟩ := mem_map.mp hr₂'
        rw [him] at hk₁ hk₂
        rw [hi, hi]
        exact h.records.single r₁ hr₁ r₂ hr₂ (keptByBlock_of_relayed he₁)
          (keptByBlock_of_relayed he₂) k hk₁ hk₂
    · change p.spentKeyImages = _
      rw [h.images, hs]
      apply index_congr
      intro k i
      simp [mem_ownersOf, hi, him]

def MayFollow (a b : PooledTx) : Prop :=
  a.id ≠ b.id ∧ (b.keptByBlock = false → ∀ k ∈ b.keyImages, k ∉ a.keyImages)

theorem initPass_exact {env : PoolEnv} {done : List PooledTx}
    (hi : p.spentKeyImages = imageIndex done) (hf : (done ++ rs).Pairwise MayFollow)
    (hn : ∀ r ∈ rs, r.keyImages.Nodup) : (initPass env rs p).1 = true ∧ (initPass env rs p).2.stored = p.stored ∧
      (initPass env rs p).2.spentKeyImages = imageIndex (done ++ rs) := by
  induction rs generalizing done p with
  | nil => simpa [initPass] using hi
  | cons r rs ih =>
    have hb : ∀ a ∈ done, MayFollow a r := by
      intro a ha
      exact (pairwise_append.mp hf).2.2 a ha r mem_cons_self
    have hs : insertKeyImages .none p.stored r.id r.info.relayMethod r.keyImages
        p.spentKeyImages = (true, p.spentKeyImages.add r.id r.keyImages) := by
      apply insertKeyImages_new (hn r mem_cons_self)
      · intro k _
        rw [hi, mem_owners_imageIndex]
        rintro ⟨a, ha, hd, _⟩
        exact (hb a ha).1 hd
      · intro hr k hk
        have hke : r.keptByBlock = false := by
          simp [PooledTx.keptByBlock, hr]
        rw [hi, Finset.eq_empty_iff_forall_notMem]
        intro id hd
        obtain ⟨a, ha, _, hak⟩ := mem_owners_imageIndex.mp hd
        exact (hb a ha).2 hke k hk hak
    have hc : p.spentKeyImages.add r.id r.keyImages = imageIndex (done ++ [r]) := by
      rw [hi]
      exact index_concat.symm
    have ht := ih (p := { p with
      spentKeyImages := p.spentKeyImages.add r.id r.keyImages
      sorted := insertSorted p.sorted
        { feePerByte := env.feePerByte r.info.fee r.info.weight, receiveTime := r.info.receiveTime
          id := r.id }
      weight := p.weight + r.info.weight }) hc (by simpa using hf)
      (fun r' hr' => hn r' (mem_cons_of_mem _ hr'))
    unfold initPass
    rw [hs]
    simpa using ht

theorem RecordsOk.mayFollow {a b : PooledTx} (h : RecordsOk imagesOf stored) (ha : a ∈ stored)
    (hb : b ∈ stored) (hn : a.id ≠ b.id) (hk : b.keptByBlock = false → a.keptByBlock = false) : MayFollow a b := by
  refine ⟨hn, ?_⟩
  intro hb' k hkb hka
  exact hn (h.single a ha b hb (hk hb') hb' k hka hkb)

theorem RecordsOk.passes (h : RecordsOk imagesOf stored) :
    (stored.filter (!·.keptByBlock) ++ stored.filter (·.keptByBlock)).Pairwise MayFollow := by
  have hi : ∀ q : PooledTx → Bool, (stored.filter q).Pairwise fun a b => a.id ≠ b.id := by
    intro q
    exact (pairwise_map.mp h.keys).sublist filter_sublist
  rw [pairwise_append]
  refine ⟨(hi _).imp_of_mem ?_, (hi _).imp_of_mem ?_, ?_⟩
  · intro a b ha hb hn
    rw [mem_filter] at ha hb
    exact h.mayFollow ha.1 hb.1 hn fun _ => by simpa using ha.2
  · intro a b ha hb hn
    rw [mem_filter] at ha hb
    exact h.mayFollow ha.1 hb.1 hn fun hk => by simp [hb.2] at hk
  · intro a ha b hb
    rw [mem_filter] at ha hb
    apply h.mayFollow ha.1 hb.1
    · intro hd
      have heq := inj_on_of_nodup_map h.keys ha.1 hb.1 hd
      subst heq
      simp [hb.2] at ha
    · intro hk
      simp [hb.2] at hk

theorem imageIndex_passes : imageIndex (stored.filter (!·.keptByBlock) ++ stored.filter (·.keptByBlock)) =
    imageIndex stored := by
  apply index_congr
  intro k id
  simp only [mem_ownersOf, mem_append, mem_filter]
  constructor
  · rintro ⟨r, ⟨hr, _⟩ | ⟨hr, _⟩, hi, hk⟩
    · exact ⟨r, hr, hi, hk⟩
    · exact ⟨r, hr, hi, hk⟩
  · rintro ⟨r, hr, hi, hk⟩
    refine ⟨r, ?_, hi, hk⟩
    cases hke : r.keptByBlock with
    | false => simp [hr]
    | true => simp [hr]

theorem init_exact {env : PoolEnv} {maxTxpoolWeight : UInt64} (h : RecordsOk imagesOf p.stored) :
    (p.init env maxTxpoolWeight).1 = true ∧ (p.init env maxTxpoolWeight).2.ExactImages imagesOf := by
  have hn : ∀ (q : PooledTx → Bool), ∀ r ∈ p.stored.filter q, r.keyImages.Nodup := by
    intro q r hr
    exact (h.genuine r (mem_filter.mp hr).1).2
  unfold TxPool.init
  generalize hp₀ : ({ p with
    spentKeyImages := fun _ => Option.none
    sorted := []
    weight := 0
    maxWeight := if maxTxpoolWeight = 0 then defaultTxpoolMaxWeight else maxTxpoolWeight } : TxPool) = p₀
  have hs : p₀.stored = p.stored := by rw [← hp₀]
  have ht : p₀.spentKeyImages = imageIndex [] := by
    rw [← hp₀]
    rfl
  obtain ⟨hd₁, hs₁, hi₁⟩ := @initPass_exact p₀ (p.stored.filter (!·.keptByBlock)) env []
    ht (pairwise_append.mp h.passes).1 (hn _)
  simp only [hs]
  rcases hp : initPass env (p.stored.filter (!·.keptByBlock)) p₀ with ⟨done, p₁⟩
  rw [hp] at hd₁ hs₁ hi₁
  subst hd₁
  have hs₀ : p₁.stored = p.stored := hs₁.trans hs
  obtain ⟨hd₂, hs₂, hi₂⟩ := @initPass_exact p₁ (p.stored.filter (·.keptByBlock)) env
    (p.stored.filter (!·.keptByBlock)) hi₁ h.passes (hn _)
  simp only [hs₀]
  refine ⟨hd₂, ?_, ?_⟩
  · rw [hs₂, hs₀]
    exact h
  · rw [hi₂, imageIndex_passes, hs₂, hs₀]

end

def Genuine (imagesOf : Hash → List PublicKey) (c : PoolCall) : Prop :=
  match c.op with
  | .addTx _ tx _ _ => tx.keyImages = imagesOf tx.hash ∧ tx.keyImages.Nodup
  | _ => True

/-- `prune` has nothing to do, or the database and the ordered set let it finish. -/
def PruneFinishes (db : DbThrows) (p : TxPool) (bytes : UInt64) : Prop :=
  p.weight ≤ (if bytes = 0 then p.maxWeight else bytes) ∨ DbQuiet db ∧ p.SortedSound

/-- No write answered in memory is lost. For `add_tx`: it is refused by its key images, or written
and committed, and `prune` can finish if it is needed. -/
def ImagesKept (p : TxPool) (c : PoolCall) : Prop :=
  match c.op with
  | .addTx _ tx relay pruneDb =>
    relay ≠ .block ∧ haveTxKeyimgesAsSpent c.db p tx = true ∨
      ((p.lookup tx.hash).isSome = true ∨ c.db.write tx.hash = false ∧ c.db.commit = false) ∧
        (p.weight + tx.weight ≤ p.maxWeight ∨ p.lookup tx.hash = none ∧ DbQuiet pruneDb ∧ p.SortedSound)
  | .takeTx id => c.db.commit = false ∨ p.lookup id = none
  | .prune bytes => PruneFinishes c.db p bytes
  | .removeStuckTransactions => c.db.commit = false ∨ p.stuck c.env = []
  | .validate version => c.db.commit = false ∨ p.invalid c.env version = []
  | .setRelayed _ _ => True
  | .init _ => True

theorem exactImages_empty (imagesOf : Hash → List PublicKey) : TxPool.empty.ExactImages imagesOf := by
  constructor
  · exact ⟨nodup_nil, by simp [TxPool.empty], by simp [TxPool.empty]⟩
  · rfl

theorem ExactImages.call {imagesOf : Hash → List PublicKey} {p p' : TxPool} {c : PoolCall}
    (h : p.ExactImages imagesOf) (hc : p.ImagesKept c) (hg : Genuine imagesOf c)
    (hs : p.call c = some p') : p'.ExactImages imagesOf := by
  obtain ⟨env, db, op⟩ := c
  cases op with
  | addTx version tx relay pruneDb =>
    cases hs
    rcases hc with ⟨hr, hse⟩ | ⟨hsr, hp⟩
    · rw [addTx_double_spend hr hse]
      exact h
    · exact h.addTx hg.1 hg.2 hsr hp
  | takeTx id =>
    cases hs
    exact h.takeTx hc
  | prune bytes =>
    cases hs
    exact h.prune hc
  | removeStuckTransactions =>
    cases hs
    exact h.removeStuckTransactions hc
  | validate version =>
    cases hs
    exact h.validate hc
  | setRelayed ids method =>
    cases hs
    exact h.setRelayed
  | init maxTxpoolWeight =>
    cases hs
    exact (init_exact h.records).2

/-- The map has for each key image the transactions that spend it, of which at most one was not
received in a block. -/
theorem key_images_exact {imagesOf : Hash → List PublicKey} {calls : List PoolCall} {p : TxPool}
    (hgenuine : ∀ c ∈ calls, Genuine imagesOf c) (hcalls : EveryStep TxPool.call ImagesKept .empty calls)
    (hrun : run TxPool.call .empty calls = some p) :
    (∀ k id, id ∈ p.spentKeyImages.owners k ↔ ∃ r ∈ p.stored, r.id = id ∧ k ∈ r.keyImages) ∧
      (∀ k, p.spentKeyImages k = none ↔ ∀ r ∈ p.stored, k ∉ r.keyImages) ∧
      ∀ r ∈ p.stored, ∀ r' ∈ p.stored, r.keptByBlock = false → r'.keptByBlock = false →
        ∀ k ∈ r.keyImages, k ∈ r'.keyImages → r = r' := by
  have h : p.ExactImages imagesOf := by
    apply run_invariant _ (exactImages_empty imagesOf) (hcalls.and_forall hgenuine) hrun
    intro p c p' hp hc hs
    exact hp.call hc.1 hc.2 hs
  refine ⟨?_, ?_, ?_⟩
  · intro k id
    rw [h.images, mem_owners_imageIndex]
  · intro k
    rw [h.images, imageIndex, index_eq_none]
  · intro r hr r' hr' hke he' k hk hk'
    have hi := h.records.single r hr r' hr' hke he' k hk hk'
    exact inj_on_of_nodup_map h.records.keys hr hr' hi

end TxPool

/-- A transaction on its stem phase comes again, another one comes, and the
first is taken out. -/
theorem key_images_exact_after_take : ∃ p, run TxPool.call .empty
        [receive 0 (pooledTx 1 11 3000) .stem, receive 1 (pooledTx 1 11 3000) .fluff,
          receive 2 (pooledTx 2 12 2000) .fluff,
          { env := lenientEnv 3, db := .none, op := .takeTx 1 }] = some p ∧
      p.stored.map PooledTx.id = [2] ∧
      (∀ k id, id ∈ p.spentKeyImages.owners k ↔ ∃ r ∈ p.stored, r.id = id ∧ k ∈ r.keyImages) ∧
      (∀ k, p.spentKeyImages k = none ↔ ∀ r ∈ p.stored, k ∉ r.keyImages) ∧
      ∀ r ∈ p.stored, ∀ r' ∈ p.stored, r.keptByBlock = false → r'.keptByBlock = false →
        ∀ k ∈ r.keyImages, k ∈ r'.keyImages → r = r' := by
  have hl : ((run TxPool.call .empty [receive 0 (pooledTx 1 11 3000) .stem, receive 1 (pooledTx 1 11 3000) .fluff,
        receive 2 (pooledTx 2 12 2000) .fluff,
        { env := lenientEnv 3, db := .none, op := .takeTx 1 }]).map fun p =>
      p.stored.map PooledTx.id) = some [2] := by
    decide +kernel
  obtain ⟨p, hr, hi⟩ := Option.map_eq_some_iff.mp hl
  refine ⟨p, hr, hi, @TxPool.key_images_exact (fun id => [id + 10]) _ p ?_ ?_ hr⟩
  · simp [TxPool.Genuine, receive, pooledTx, Transaction.keyImages, TxIn.keyImage?]
  · apply everyStep_cons
    · exact .inr ⟨.inr ⟨rfl, rfl⟩, .inl (by decide +kernel)⟩
    intro p₁ hs₁
    cases hs₁
    apply everyStep_cons
    · exact .inr ⟨.inr ⟨rfl, rfl⟩, .inl (by decide +kernel)⟩
    intro p₂ hs₂
    cases hs₂
    apply everyStep_cons
    · exact .inr ⟨.inr ⟨rfl, rfl⟩, .inl (by decide +kernel)⟩
    intro p₃ _
    exact everyStep_cons (.inl rfl) fun _ _ => everyStep_nil

def writeThrows (id : Hash) : DbThrows := { DbThrows.none with write := fun i => decide (i = id) }

/-- `prune` removes the second transaction and then cannot remove the first: both are still in the
database, but not in the map. -/
theorem prune_given_up_loses_key_image : ∃ p, run TxPool.call .empty
        [{ env := lenientEnv 0, db := .none, op := .init 5000 },
          receive 0 (pooledTx 1 11 2000) .fluff, receive 1 (pooledTx 2 12 2000) .fluff,
          { env := lenientEnv 2, db := .none
            op := .addTx 8 { pooledTx 3 13 4500 with fee := 900000 } .fluff (writeThrows 1) }] = some p ∧
      p.stored.map PooledTx.id = [1, 2, 3] ∧ p.spentKeyImages 12 = none ∧
      ∃ r ∈ p.stored, (12 : PublicKey) ∈ r.keyImages := by
  have hv : ((run TxPool.call .empty
      [{ env := lenientEnv 0, db := .none, op := .init 5000 },
        receive 0 (pooledTx 1 11 2000) .fluff, receive 1 (pooledTx 2 12 2000) .fluff,
        { env := lenientEnv 2, db := .none
          op := .addTx 8 { pooledTx 3 13 4500 with fee := 900000 } .fluff (writeThrows 1) }]).map
      fun p => decide (p.stored.map PooledTx.id = [1, 2, 3] ∧ p.spentKeyImages 12 = none ∧
        ∃ r ∈ p.stored, (12 : PublicKey) ∈ r.keyImages)) = some true := by
    decide +kernel
  obtain ⟨p, hr, hf⟩ := Option.map_eq_some_iff.mp hv
  exact ⟨p, hr, of_decide_eq_true hf⟩

end Gyro
