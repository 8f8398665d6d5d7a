import Mathlib.Data.Finset.SDiff

/-!
# A set kept beside labelled items

A set holds the labels of the items that count. When an item goes, its labels are taken
out: that is right as long as no label belongs to two items.
-/

namespace LabelSet

section
variable {ι κ α : Type} (key : ι → κ) (labels : ι → List α)

def Exact (counts : ι → Prop) (set : Finset α) (items : List ι) : Prop :=
  ∀ a, a ∈ set ↔ ∃ i ∈ items, counts i ∧ a ∈ labels i

def Apart (items : List ι) : Prop :=
  ∀ i ∈ items, ∀ j ∈ items, ∀ a, a ∈ labels i → a ∈ labels j → key i = key j

def Distinct (items : List ι) : Prop := ∀ i ∈ items, ∀ j ∈ items, key i = key j → i = j

end

variable {ι κ α : Type} [DecidableEq κ] [DecidableEq α] {key : ι → κ} {labels : ι → List α} {counts : ι → Prop}
  {set : Finset α} {items items' : List ι} {i : ι}

theorem Exact.erase (hs : Exact labels counts set items) (ha : Apart key labels items)
    (hd : Distinct key items) (hi : i ∈ items) :
    Exact labels counts (set \ (labels i).toFinset) (items.filter (key · ≠ key i)) := by
  intro a
  simp only [Finset.mem_sdiff, hs a, List.mem_toFinset, List.mem_filter, decide_eq_true_eq]
  constructor
  · rintro ⟨⟨j, hj, hc, hl⟩, hnot⟩
    refine ⟨j, ⟨hj, fun hk => hnot ?_⟩, hc, hl⟩
    rwa [← hd j hj i hi hk]
  · rintro ⟨j, ⟨hj, hk⟩, hc, hl⟩
    exact ⟨⟨j, hj, hc, hl⟩, fun hl' => hk (ha j hj i hi a hl hl')⟩

theorem Apart.filter {p : ι → Bool} (ha : Apart key labels items) : Apart key labels (items.filter p) :=
  fun i hi j hj => ha i (List.mem_of_mem_filter hi) j (List.mem_of_mem_filter hj)

section
variable (hs : Exact labels counts set items) (hme : ∀ j, j ∈ items' ↔ j = i ∨ j ∈ items)
include hs hme

theorem Exact.insert (hc : counts i) : Exact labels counts (set ∪ (labels i).toFinset) items' := by
  intro a
  simp only [Finset.mem_union, hs a, List.mem_toFinset, hme]
  constructor
  · rintro (⟨j, hj, hl⟩ | hl)
    exacts [⟨j, Or.inr hj, hl⟩, ⟨i, Or.inl rfl, hc, hl⟩]
  · rintro ⟨j, rfl | hj, hc', hl⟩
    exacts [Or.inr hl, Or.inl ⟨j, hj, hc', hl⟩]

theorem Exact.insert_silent (hi : counts i → labels i = []) : Exact labels counts set items' := by
  intro a
  simp only [hs a, hme]
  constructor
  · rintro ⟨j, hj, hr⟩
    exact ⟨j, Or.inr hj, hr⟩
  · rintro ⟨j, rfl | hj, hc, hl⟩
    · rw [hi hc] at hl
      cases hl
    · exact ⟨j, hj, hc, hl⟩

end

theorem Apart.insert (ha : Apart key labels items) (hme : ∀ j, j ∈ items' ↔ j = i ∨ j ∈ items)
    (hn : ∀ j ∈ items, ∀ a ∈ labels i, a ∉ labels j) : Apart key labels items' := by
  intro j hj j' hj' a hl hl'
  rcases (hme j).mp hj with rfl | hj
  · rcases (hme j').mp hj' with rfl | hj'
    · rfl
    · exact absurd hl' (hn j' hj' a hl)
  · rcases (hme j').mp hj' with rfl | hj'
    · exact absurd hl (hn j hj a hl')
    · exact ha j hj j' hj' a hl hl'

end LabelSet
