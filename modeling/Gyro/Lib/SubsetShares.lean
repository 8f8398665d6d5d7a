import Mathlib

/-!
# Shares for the sets of parties of one size

Each set of `r` parties has a share, which its members hold. Parties that meet every
such set hold all shares; parties that leave one out do not.
-/

namespace SubsetShares

variable {ι σ : Type} {share : Finset ι → σ} {r : Nat} {held : ι → List σ}

def Holds (share : Finset ι → σ) (r : Nat) (held : ι → List σ) : Prop :=
  ∀ i s, s ∈ held i ↔ ∃ T : Finset ι, i ∈ T ∧ T.card = r ∧ share T = s

def Differ (share : Finset ι → σ) (r : Nat) : Prop := Set.InjOn share {T | T.card = r}

variable {T : Finset ι}

theorem Holds.mem (h : Holds share r held) {i : ι} (hi : i ∈ T) (hT : T.card = r) : share T ∈ held i :=
  (h i (share T)).mpr ⟨T, hi, hT, rfl⟩

theorem Holds.mem_iff (h : Holds share r held) (hd : Differ share r) {i : ι} (hT : T.card = r) :
    share T ∈ held i ↔ i ∈ T := by
  constructor
  · intro hme
    obtain ⟨T', hi, hT', heq⟩ := (h i (share T)).mp hme
    rw [← hd hT' hT heq]
    exact hi
  · intro hi
    exact h.mem hi hT

def Lists (share : Finset ι → σ) (sets : Finset (Finset ι)) (xs : List σ) : Prop :=
  xs.Nodup ∧ ∀ s, s ∈ xs ↔ ∃ T ∈ sets, share T = s

section
variable {sets : Finset (Finset ι)} {xs : List σ}

variable (h : Lists share sets xs)
include h

theorem Lists.map {τ : Type} {f : σ → τ} (hf : Function.Injective f) :
    Lists (fun T => f (share T)) sets (xs.map f) := by
  refine ⟨h.1.map hf, ?_⟩
  intro t
  rw [List.mem_map]
  constructor
  · rintro ⟨s, hs, rfl⟩
    obtain ⟨T, hT, rfl⟩ := (h.2 s).mp hs
    exact ⟨T, hT, rfl⟩
  · rintro ⟨T, hT, rfl⟩
    exact ⟨share T, (h.2 _).mpr ⟨T, hT, rfl⟩, rfl⟩

theorem Lists.ne_nil (hs : sets.Nonempty) : xs ≠ [] := by
  obtain ⟨T, hT⟩ := hs
  exact List.ne_nil_of_mem ((h.2 _).mpr ⟨T, hT, rfl⟩)

theorem Lists.sum [AddCommMonoid σ] (hd : Set.InjOn share sets) : xs.sum = ∑ T ∈ sets, share T := by
  classical
  have hi : xs.toFinset = sets.image share := by
    ext s
    rw [List.mem_toFinset, Finset.mem_image, h.2 s]
  calc xs.sum = (xs.map fun s => s).sum := by rw [List.map_id']
    _ = ∑ s ∈ xs.toFinset, s := (List.sum_toFinset (fun s => s) h.1).symm
    _ = ∑ s ∈ sets.image share, s := by rw [hi]
    _ = ∑ T ∈ sets, share T := Finset.sum_image hd

end

variable [Fintype ι]

theorem Holds.biUnion [DecidableEq σ] (h : Holds share r held) (hr : 0 < r) :
    (Finset.univ.biUnion fun i => (held i).toFinset) = (Finset.univ.powersetCard r).image share := by
  ext s
  simp only [Finset.mem_biUnion, Finset.mem_univ, true_and, List.mem_toFinset, Finset.mem_image,
    Finset.mem_powersetCard, Finset.subset_univ]
  constructor
  · rintro ⟨i, hs⟩
    obtain ⟨T, -, hT, hh⟩ := (h i s).mp hs
    exact ⟨T, hT, hh⟩
  · rintro ⟨T, hT, rfl⟩
    have hn : T.Nonempty := by
      apply Finset.card_pos.mp
      rw [hT]
      exact hr
    obtain ⟨i, hi⟩ := hn
    exact ⟨i, h.mem hi hT⟩

variable [DecidableEq ι] {A : Finset ι}

/-- Parties that are too many to be left out of any set hold all shares. -/
theorem Holds.covered (h : Holds share r held) (hA : Fintype.card ι < A.card + r) (hT : T.card = r) :
    ∃ i ∈ A, share T ∈ held i := by
  have ht : ¬Disjoint A T := by
    intro hd
    have hle := Finset.card_le_univ (A ∪ T)
    rw [Finset.card_union_of_disjoint hd, hT] at hle
    exact Nat.not_lt.mpr hle hA
  obtain ⟨i, hi, hiT⟩ := Finset.not_disjoint_iff.mp ht
  exact ⟨i, hi, h.mem hiT hT⟩

theorem Holds.missed (h : Holds share r held) (hd : Differ share r) (hA : A.card + r ≤ Fintype.card ι) :
    ∃ T : Finset ι, T.card = r ∧ ∀ i ∈ A, share T ∉ held i := by
  have hr : r ≤ Aᶜ.card := by
    rw [Finset.card_compl]
    omega
  obtain ⟨T, hs, hT⟩ := Finset.exists_subset_card_eq hr
  refine ⟨T, hT, ?_⟩
  intro i hi hme
  have ht := (h.mem_iff hd hT).mp hme
  exact Finset.mem_compl.mp (hs ht) hi

end SubsetShares
