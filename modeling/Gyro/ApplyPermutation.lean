import Mathlib

/-!
# Applying a permutation in place

`tools::apply_permutation` (`common/apply_permutation.h`), which follows the cycles of a vector of indexes
and marks what is done in it. A vector of `n` elements is a function on `Fin n`.
-/

namespace Gyro

open Equiv

inductive PermutationStop
  | badPermutation
  | mismatchedSizes
  | outOfRange
  | outOfFuel

section
variable {n : ℕ} {S : Type} (swap : Fin n → Fin n → S → S)

/-- The `while` loop from `current` on, and what comes behind it. -/
def followCycle (i : Fin n) : ℕ → (Fin n → ℕ) × S → Fin n → Except PermutationStop ((Fin n → ℕ) × S)
  | 0, _, _ => .error .outOfFuel
  | fuel + 1, (permutation, s), current =>
    if i = permutation current then .ok (Function.update permutation current current, s)
    else if h : permutation current < n then
      let next : Fin n := ⟨permutation current, h⟩
      followCycle i fuel (Function.update permutation current current, swap current next s) next
    else .error .outOfRange

def applyPermutationBy (permutation : Fin n → ℕ) (s : S) : Except PermutationStop S :=
  if ∃ k : Fin n, ∀ j, permutation j ≠ k then .error .badPermutation
  else do
    let (_, s) ← (List.finRange n).foldlM (fun st i => followCycle swap i n st i) (permutation, s)
    return s

end

def applyPermutation {n m : ℕ} {α : Type} (permutation : Fin n → ℕ) (v : Fin m → α) : Except PermutationStop (Fin m → α) :=
  if h : n = m then applyPermutationBy (fun i j v => v ∘ Equiv.swap (i.cast h) (j.cast h)) permutation v
  else .error .mismatchedSizes

section
variable {n : ℕ} {α : Type} {p : Fin n → ℕ} {v : Fin n → α} {τ : Perm (Fin n)} {i c : Fin n} {fuel : ℕ}

/-- What is left to do is `τ`: the entry that closes the cycle names its start `i` instead of `c`, where
the element of `i` is by now. -/
structure Walk (i c : Fin n) (p : Fin n → ℕ) (τ : Perm (Fin n)) : Prop where
  entry j : p j = if τ j = c then (i : ℕ) else τ j
  start : c = i ∨ τ i = i

theorem Walk.closed_iff (h : Walk i c p τ) : i = p c ↔ τ c = c := by
  rw [h.entry]
  split
  · simp_all
  · rename_i hc
    simp only [hc, iff_false, Fin.val_inj]
    intro hi
    rcases h.start with rfl | hf
    · exact hc hi.symm
    · have hic : i = c := τ.injective (hf.trans hi)
      exact hc (hi.symm.trans hic)

theorem Walk.next (h : Walk i c p τ) (hc : τ c ≠ c) :
    Walk i (τ c) (Function.update p c c) (Equiv.swap c (τ c) * τ) where
  entry j := by
    by_cases hj : j = c
    · subst hj
      simp [hc.symm]
    · rw [Function.update_of_ne hj, h.entry]
      by_cases hτ : τ j = c
      · simp [hτ]
      · have hn : τ j ≠ τ c := τ.injective.ne hj
        simp [hτ, swap_apply_of_ne_of_ne hτ hn, hn]
  start := by
    by_cases hi : τ c = i
    · exact .inl hi
    · rcases h.start with rfl | hf
      · simp
      · have hn : i ≠ c := by
          rintro rfl
          exact hc hf
        simp [hf, swap_apply_of_ne_of_ne hn (Ne.symm hi)]

theorem fixed_swap_mul {j : Fin n} (hc : τ c ≠ c) (hj : τ j = j) : (Equiv.swap c (τ c) * τ) j = j := by
  have hn : j ≠ c := by
    rintro rfl
    exact hc hj
  have hn' : j ≠ τ c := by
    rintro rfl
    exact hc (τ.injective hj)
  rw [Perm.mul_apply, hj, swap_apply_of_ne_of_ne hn hn']

/-- From `p` and `v` with `τ` left to do the loop comes to what leaves `τ'` to do for the same result. -/
structure Resolved (v : Fin n → α) (τ : Perm (Fin n)) (st : (Fin n → ℕ) × (Fin n → α)) (τ' : Perm (Fin n)) : Prop where
  entry j : st.1 j = τ' j
  result : st.2 ∘ τ' = v ∘ τ
  fixed j : τ j = j → τ' j = j

theorem followCycle_resolved (h : Walk i c p τ) (hf : τ.support.card ≤ fuel) (ho : 0 < fuel) : ∃ st τ',
    followCycle (fun i j v => v ∘ Equiv.swap i j) i fuel (p, v) c = .ok st ∧ Resolved v τ st τ' ∧ τ' i = i := by
  induction fuel generalizing p v τ c with
  | zero => omega
  | succ fuel ih =>
    by_cases hc : τ c = c
    · -- the cycle is closed, and the last entry is set
      refine ⟨(Function.update p c c, v), τ, ?_, ⟨fun j => ?_, rfl, fun _ hj => hj⟩, ?_⟩
      · rw [followCycle, if_pos (h.closed_iff.mpr hc)]
      · by_cases hj : j = c
        · subst hj
          simp [hc]
        · have hn : τ j ≠ c := fun hτ => hj (τ.injective (hτ.trans hc.symm))
          simp [Function.update_of_ne hj, h.entry, hn]
      · rcases h.start with rfl | hi
        · exact hc
        · exact hi
    · have hp : p c = τ c := by rw [h.entry, if_neg hc]
      have hl := Perm.card_support_swap_mul hc
      have ht := Perm.two_le_card_support_of_ne_one fun h1 : τ = 1 => hc (by simp [h1])
      obtain ⟨st, τ', heq, hr, hi⟩ := ih (h.next hc) (v := v ∘ Equiv.swap c (τ c)) (by omega) (by omega)
      refine ⟨st, τ', ?_, ⟨hr.entry, ?_, fun j hj => hr.fixed j (fixed_swap_mul hc hj)⟩, hi⟩
      · rw [followCycle, if_neg (by rwa [h.closed_iff]), dif_pos (hp ▸ (τ c).isLt)]
        simpa only [hp] using heq
      · rw [hr.result]
        funext j
        simp

theorem foldlM_resolved (h : ∀ j, p j = τ j) (is : List (Fin n)) : ∃ st τ',
    is.foldlM (fun st i => followCycle (fun i j v => v ∘ Equiv.swap i j) i n st i) (p, v) = .ok st ∧ Resolved v τ st τ' ∧
      ∀ i ∈ is, τ' i = i := by
  induction is generalizing p v τ with
  | nil => exact ⟨(p, v), τ, rfl, ⟨h, rfl, fun _ hj => hj⟩, by simp⟩
  | cons i is ih =>
    have ha : Walk i i p τ := ⟨fun j => by split <;> simp_all, .inl rfl⟩
    obtain ⟨⟨p₁, v₁⟩, τ₁, heq, hr, hi⟩ :=
      followCycle_resolved (v := v) ha ((Finset.card_le_univ _).trans (by simp)) (Fin.pos i)
    obtain ⟨st, τ', hs, hr', his⟩ := ih (v := v₁) hr.entry
    refine ⟨st, τ', ?_, ⟨hr'.entry, hr'.result.trans hr.result, fun j hj => hr'.fixed j (hr.fixed j hj)⟩, ?_⟩
    · rw [List.foldlM_cons, heq]
      exact hs
    · intro j hj
      rcases List.mem_cons.mp hj with rfl | hj
      · exact hr'.fixed j hi
      · exact his j hj

/-- The check lets through the permutations. -/
theorem exists_perm_iff : (∃ τ : Perm (Fin n), ∀ j, p j = τ j) ↔ ¬ ∃ k : Fin n, ∀ j, p j ≠ k := by
  constructor
  · rintro ⟨τ, h⟩ ⟨k, hk⟩
    exact hk (τ.symm k) (by simp [h])
  · intro h
    push Not at h
    choose f hf using h
    have hinj : Function.Injective f := fun a b ha => Fin.ext (by rw [← hf a, ← hf b, ha])
    let e := Equiv.ofBijective f (Finite.injective_iff_bijective.mp hinj)
    refine ⟨e.symm, fun j => ?_⟩
    rw [← hf (e.symm j)]
    exact congrArg p (e.apply_symm_apply j).symm

end

/-- For a permutation every position gets the element at its entry, and for another vector the call throws. -/
theorem apply_permutation_exact {n : ℕ} {α : Type} (p : Fin n → ℕ) (v : Fin n → α) :
    (∃ τ : Perm (Fin n), (∀ i, p i = τ i) ∧ ∃ v', applyPermutation p v = .ok v' ∧ ∀ i, v' i = v (τ i)) ∨
      (¬ ∃ τ : Perm (Fin n), ∀ i, p i = τ i) ∧ applyPermutation p v = .error .badPermutation := by
  by_cases h : ∃ k : Fin n, ∀ j, p j ≠ k
  · right
    rw [exists_perm_iff, applyPermutation, dif_pos rfl, applyPermutationBy, if_pos h]
    exact ⟨not_not.mpr h, rfl⟩
  · left
    obtain ⟨τ, hp⟩ := exists_perm_iff.mpr h
    obtain ⟨⟨q, v'⟩, τ', heq, hr, hf⟩ := foldlM_resolved (v := v) hp (List.finRange n)
    have ho : τ' = 1 := Perm.ext fun i => hf i (List.mem_finRange i)
    refine ⟨τ, hp, v', ?_, fun i => ?_⟩
    · rw [applyPermutation, dif_pos rfl, applyPermutationBy, if_neg h]
      simp only [Fin.cast_refl, id] at *
      rw [heq]
      rfl
    · have := congrFun hr.result i
      simpa [ho] using this

end Gyro
