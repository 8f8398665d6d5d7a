import Mathlib.Data.List.Nodup
import Mathlib.Algebra.BigOperators.Group.List.Basic

/-!
# Lists of records with a key

The first record with a key is the one found, and removing a key removes every record
that has it.
-/

namespace Keyed

open List

variable {α ι : Type} [DecidableEq ι] (key : α → ι)

def find (xs : List α) (i : ι) : Option α := xs.find? fun x => key x = i

def without (xs : List α) (i : ι) : List α := xs.filter fun x => key x ≠ i

variable {key} {xs : List α} {x : α} {i j : ι}

theorem find_some_mem (h : find key xs i = some x) : x ∈ xs ∧ key x = i := by
  have hk := List.find?_some h
  exact ⟨List.mem_of_find?_eq_some h, of_decide_eq_true hk⟩

theorem find_eq_none_iff : find key xs i = none ↔ i ∉ xs.map key := by
  simp [find]

theorem find_eq_some_iff (h : (xs.map key).Nodup) : find key xs i = some x ↔ x ∈ xs ∧ key x = i := by
  constructor
  · exact find_some_mem
  · rintro ⟨hme, hk⟩
    cases hf : find key xs i with
    | none =>
      rw [find_eq_none_iff, ← hk] at hf
      exact absurd (mem_map_of_mem hme) hf
    | some y =>
      obtain ⟨hy, hyk⟩ := find_some_mem hf
      rw [inj_on_of_nodup_map h hy hme (hyk.trans hk.symm)]

@[simp] theorem mem_without : x ∈ without key xs i ↔ x ∈ xs ∧ key x ≠ i := by
  simp [without]

theorem mem_map_without : j ∈ (without key xs i).map key ↔ j ∈ xs.map key ∧ j ≠ i := by
  constructor
  · intro hj
    obtain ⟨x, hx, rfl⟩ := mem_map.mp hj
    rw [mem_without] at hx
    exact ⟨mem_map_of_mem hx.1, hx.2⟩
  · rintro ⟨hj, hn⟩
    obtain ⟨x, hx, rfl⟩ := mem_map.mp hj
    exact mem_map_of_mem (mem_without.mpr ⟨hx, hn⟩)

theorem nodup_without (h : (xs.map key).Nodup) : ((without key xs i).map key).Nodup :=
  h.sublist (filter_sublist.map key)

theorem without_of_find_none (h : find key xs i = none) : without key xs i = xs := by
  rw [find_eq_none_iff] at h
  apply filter_eq_self.mpr
  intro x hx
  have hn : key x ≠ i := by
    rintro rfl
    exact h (mem_map_of_mem hx)
  exact decide_eq_true hn

theorem mem_without_tail {y : α} {ys : List α} (hk : ((y :: ys).map key).Nodup)
    (hme : ∀ x ∈ y :: ys, x ∈ xs) : ∀ x ∈ ys, x ∈ without key xs (key y) := by
  intro x hx
  have hn : key x ≠ key y := by
    intro heq
    exact (nodup_cons.mp hk).1 (heq ▸ mem_map_of_mem hx)
  exact mem_without.mpr ⟨hme x (mem_cons_of_mem _ hx), hn⟩

omit [DecidableEq ι] in
theorem nodup_concat (h : (xs.map key).Nodup) (hf : key x ∉ xs.map key) : ((xs ++ [x]).map key).Nodup := by
  have hc := h.concat hf
  rwa [concat_eq_append, ← map_singleton, ← map_append] at hc

theorem sum_without {M : Type} [AddCommMonoid M] (f : α → M) (h : (xs.map key).Nodup)
    (hf : find key xs i = some x) : (xs.map f).sum = f x + ((without key xs i).map f).sum := by
  induction xs with
  | nil => cases hf
  | cons y ys ih =>
    rw [map_cons, nodup_cons] at h
    by_cases hy : key y = i
    · have hx : y = x := by simpa [find, hy] using hf
      have hr : find key ys i = none := by
        rw [find_eq_none_iff, ← hy]
        exact h.1
      have hi : without key (y :: ys) i = ys := by
        have := without_of_find_none hr
        simpa [without, hy] using this
      rw [hi, map_cons, sum_cons, hx]
    · have ht : find key ys i = some x := by simpa [find, hy] using hf
      have hi : without key (y :: ys) i = y :: without key ys i := by
        simp [without, hy]
      rw [hi, map_cons, sum_cons, ih h.2 ht, map_cons, sum_cons, add_left_comm]

end Keyed
