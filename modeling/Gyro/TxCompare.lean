import Gyro.TxPool
import Mathlib

/-!
# The order of the pool

`txCompare`, the comparison of `sorted_tx_container` (`cryptonote_core/tx_pool.h`). A `std::set` wants a
strict weak ordering of the entries it holds.
-/

namespace Gyro

def txCompare (a b : SortedEntry) : Bool :=
  if a.feePerByte > b.feePerByte then true
  else if a.feePerByte < b.feePerByte then false
  else if a.receiveTime < b.receiveTime then true
  else if a.receiveTime > b.receiveTime then false
  else if a.id ≠ b.id then true
  else false

/-- What the container needs of its comparison, for the entries in `S`: the order of a list of them is
that of its elements, so that each has one place. -/
structure OrdersEntries (lt : SortedEntry → SortedEntry → Bool) (S : Set SortedEntry) : Prop where
  irrefl : ∀ a ∈ S, ¬ lt a a
  asymm : ∀ a ∈ S, ∀ b ∈ S, lt a b → ¬ lt b a
  trans : ∀ a ∈ S, ∀ b ∈ S, ∀ c ∈ S, lt a b → lt b c → lt a c
  eq_of_equiv : ∀ a ∈ S, ∀ b ∈ S, ¬ lt a b → ¬ lt b a → a = b
  one_place : ∀ es es' : List SortedEntry, (∀ e ∈ es, e ∈ S) → es.Perm es' → es.Pairwise (lt · ·) → es'.Pairwise (lt · ·) →
    es = es'

section
variable {a b : SortedEntry}

theorem txCompare_iff : txCompare a b ↔ b.feePerByte < a.feePerByte ∨ a.feePerByte = b.feePerByte ∧
    (a.receiveTime.toNat < b.receiveTime.toNat ∨ a.receiveTime.toNat = b.receiveTime.toNat ∧ a.id ≠ b.id) := by
  unfold txCompare
  rcases lt_trichotomy a.feePerByte b.feePerByte with hf | hf | hf
  · simp [hf, hf.ne, hf.not_gt]
  · simp only [hf, gt_iff_lt, lt_self_iff_false, if_false, false_or, true_and, UInt64.lt_iff_toNat_lt]
    rcases Nat.lt_trichotomy a.receiveTime.toNat b.receiveTime.toNat with ht | ht | ht
    · simp [ht]
    · simp [ht]
    · simp [ht, ht.not_gt, ht.ne']
  · simp [hf]

/-- One of two different entries always comes first. -/
theorem eq_of_not_txCompare (ha : ¬ txCompare a b) (hb : ¬ txCompare b a) : a = b := by
  rw [txCompare_iff] at ha hb
  obtain ⟨hf, hf'⟩ : ¬ b.feePerByte < a.feePerByte ∧ ¬ a.feePerByte < b.feePerByte := by tauto
  have hfe := le_antisymm (not_lt.mp hf) (not_lt.mp hf')
  have ht : a.receiveTime.toNat = b.receiveTime.toNat := by
    simp only [hfe, true_and] at ha hb
    omega
  obtain ⟨fee, time, id⟩ := a
  simp_all [UInt64.toNat_inj]

/-- Without ties the id does not matter. -/
theorem txCompare_iff_of_untied (h : a.feePerByte = b.feePerByte → a.receiveTime = b.receiveTime → a.id = b.id) :
    txCompare a b ↔ b.feePerByte < a.feePerByte ∨
      a.feePerByte = b.feePerByte ∧ a.receiveTime.toNat < b.receiveTime.toNat := by
  rw [txCompare_iff, UInt64.toNat_inj]
  tauto

end

/-- The comparison orders the entries exactly if no two of them agree in rate and time but not in the id. -/
theorem tx_compare_orders_iff (S : Set SortedEntry) : OrdersEntries txCompare S ↔
    ∀ a ∈ S, ∀ b ∈ S, a.feePerByte = b.feePerByte → a.receiveTime = b.receiveTime → a.id = b.id := by
  constructor
  · intro h a ha b hb hfe hi
    by_contra hd
    exact h.asymm a ha b hb (txCompare_iff.mpr (.inr ⟨hfe, .inr ⟨by rw [hi], hd⟩⟩))
      (txCompare_iff.mpr (.inr ⟨hfe.symm, .inr ⟨by rw [hi], Ne.symm hd⟩⟩))
  · intro h
    have hl := fun a ha b hb => txCompare_iff_of_untied (h a ha b hb)
    have ham : ∀ a ∈ S, ∀ b ∈ S, txCompare a b → ¬ txCompare b a := by
      intro a ha b hb
      rw [hl a ha b hb, hl b hb a ha]
      rintro (hf | ⟨hf, ht⟩) (hf' | ⟨hf', ht'⟩)
      · exact lt_asymm hf hf'
      · exact hf.ne hf'
      · exact hf'.ne hf
      · omega
    constructor
    · intro a ha
      simp [txCompare_iff]
    · exact ham
    · intro a ha b hb c hc
      rw [hl a ha b hb, hl b hb c hc, hl a ha c hc]
      rintro (hf | ⟨hf, ht⟩) (hf' | ⟨hf', ht'⟩)
      · exact .inl (hf'.trans hf)
      · exact .inl (hf' ▸ hf)
      · exact .inl (hf ▸ hf')
      · exact .inr ⟨hf.trans hf', ht.trans ht'⟩
    · intro a ha b hb
      exact eq_of_not_txCompare
    · intro es es' hs hp ho hs'
      apply hp.eq_of_pairwise _ ho hs'
      intro a b ha hb hab hba
      exact absurd hba (ham a (hs a ha) b (hs b (hp.symm.subset hb)) hab)

/-- Two transactions with the same rate, received in the same second, each come before the other. -/
theorem tied_entries_both_first : txCompare ⟨1, 0, 1⟩ ⟨1, 0, 2⟩ ∧ txCompare ⟨1, 0, 2⟩ ⟨1, 0, 1⟩ ∧
    ¬ OrdersEntries txCompare Set.univ := by
  refine ⟨by decide +kernel, by decide +kernel, fun h => ?_⟩
  exact h.asymm ⟨1, 0, 1⟩ trivial ⟨1, 0, 2⟩ trivial (by decide +kernel) (by decide +kernel)

end Gyro
