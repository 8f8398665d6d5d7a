import Gyro.Lib.Keyed
import Mathlib.Data.Finset.Basic

/-!
# The index of a store by an attribute

The index gives for an attribute the keys of the records that have it, and nothing where
there are none.
-/

namespace InvertedIndex

open Keyed

variable {α ι κ : Type} [DecidableEq ι] [DecidableEq κ]

abbrev Index (κ ι : Type) := κ → Option (Finset ι)

def entry (s : Finset ι) : Option (Finset ι) := if s = ∅ then none else some s

def Index.owners (m : Index κ ι) (k : κ) : Finset ι := (m k).getD ∅

def Index.add (m : Index κ ι) (i : ι) (ks : List κ) : Index κ ι :=
  fun k => if k ∈ ks then some (insert i (m.owners k)) else m k

def Index.drop (m : Index κ ι) (i : ι) (ks : List κ) : Index κ ι :=
  fun k => if k ∈ ks then entry ((m.owners k).erase i) else m k

section
variable {m : Index κ ι} {i j : ι} {k : κ} {ks : List κ}

@[simp] theorem getD_entry (s : Finset ι) : (entry s).getD ∅ = s := by
  unfold entry
  by_cases hs : s = ∅
  · simp [hs]
  · simp [hs]

theorem mem_owners_add : j ∈ (m.add i ks).owners k ↔ j ∈ m.owners k ∨ j = i ∧ k ∈ ks := by
  by_cases hk : k ∈ ks
  · simp [Index.owners, Index.add, hk, or_comm]
  · simp [Index.owners, Index.add, hk]

theorem owners_drop_of_notMem (hk : k ∉ ks) : (m.drop i ks).owners k = m.owners k := by
  simp [Index.owners, Index.drop, hk]

@[simp] theorem add_nil : m.add i [] = m := by
  funext k
  simp [Index.add]

@[simp] theorem drop_nil : m.drop i [] = m := by
  funext k
  simp [Index.drop]

theorem add_add : (m.add i [k]).add i ks = m.add i (k :: ks) := by
  funext k'
  by_cases hk : k' = k
  · simp [Index.add, Index.owners, hk]
  · simp [Index.add, Index.owners, hk]

theorem drop_drop : (m.drop i [k]).drop i ks = m.drop i (k :: ks) := by
  funext k'
  by_cases hk : k' = k
  · simp [Index.drop, Index.owners, hk]
  · simp [Index.drop, Index.owners, hk]

theorem add_drop : (m.drop i ks).add i ks = m.add i ks := by
  funext k
  by_cases hk : k ∈ ks
  · have hi : insert i ((m.owners k).erase i) = insert i (m.owners k) := by
      ext j
      simp only [Finset.mem_insert, Finset.mem_erase]
      tauto
    simpa [Index.add, Index.drop, Index.owners, hk] using hi
  · simp [Index.add, Index.drop, hk]

end

variable (key : α → ι) (attrs : α → List κ)

def ownersOf (xs : List α) (k : κ) : Finset ι := ((xs.filter fun x => k ∈ attrs x).map key).toFinset

def index (xs : List α) : Index κ ι := fun k => entry (ownersOf key attrs xs k)

variable {key attrs} {xs ys : List α} {x : α} {i : ι} {k : κ}

theorem mem_ownersOf : i ∈ ownersOf key attrs xs k ↔ ∃ x ∈ xs, key x = i ∧ k ∈ attrs x := by
  simp only [ownersOf, List.mem_toFinset, List.mem_map, List.mem_filter, decide_eq_true_eq]
  constructor
  · rintro ⟨x, ⟨hx, hk⟩, hi⟩
    exact ⟨x, hx, hi, hk⟩
  · rintro ⟨x, hx, hi, hk⟩
    exact ⟨x, ⟨hx, hk⟩, hi⟩

@[simp] theorem owners_index : (index key attrs xs).owners k = ownersOf key attrs xs k :=
  getD_entry _

theorem entry_insert (i : ι) (s : Finset ι) : entry (insert i s) = some (insert i s) :=
  if_neg (Finset.insert_ne_empty i s)

theorem index_eq_none : index key attrs xs k = none ↔ ∀ x ∈ xs, k ∉ attrs x := by
  unfold index entry
  rw [ite_eq_left_iff]
  simp only [reduceCtorEq, imp_false, not_not, Finset.eq_empty_iff_forall_notMem, mem_ownersOf]
  constructor
  · intro h x hx hk
    exact h (key x) ⟨x, hx, rfl, hk⟩
  · rintro h i ⟨x, hx, _, hk⟩
    exact h x hx hk

theorem index_congr (h : ∀ k i, i ∈ ownersOf key attrs xs k ↔ i ∈ ownersOf key attrs ys k) :
    index key attrs xs = index key attrs ys := by
  funext k
  exact congrArg entry (Finset.ext (h k))

theorem index_concat : index key attrs (xs ++ [x]) = (index key attrs xs).add (key x) (attrs x) := by
  funext k
  unfold Index.add
  by_cases hk : k ∈ attrs x
  · have ho : ownersOf key attrs (xs ++ [x]) k = insert (key x) (ownersOf key attrs xs k) := by
      ext i
      simp only [mem_ownersOf, Finset.mem_insert, List.mem_append, List.mem_singleton]
      constructor
      · rintro ⟨y, hy | rfl, hi, hyk⟩
        · exact .inr ⟨y, hy, hi, hyk⟩
        · exact .inl hi.symm
      · rintro (rfl | ⟨y, hy, hi, hyk⟩)
        · exact ⟨x, .inr rfl, rfl, hk⟩
        · exact ⟨y, .inl hy, hi, hyk⟩
    rw [if_pos hk, owners_index, ← entry_insert, ← ho]
    rfl
  · have ho : ownersOf key attrs (xs ++ [x]) k = ownersOf key attrs xs k := by
      simp [ownersOf, List.filter_append, hk]
    rw [if_neg hk]
    exact congrArg entry ho

theorem index_without (h : (xs.map key).Nodup) (hf : find key xs i = some x) :
    index key attrs (without key xs i) = (index key attrs xs).drop i (attrs x) := by
  obtain ⟨hme, rfl⟩ := find_some_mem hf
  have ho : ∀ k, ownersOf key attrs (without key xs (key x)) k =
      (ownersOf key attrs xs k).erase (key x) := by
    intro k
    ext i
    simp only [mem_ownersOf, Finset.mem_erase, mem_without]
    constructor
    · rintro ⟨y, ⟨hy, hn⟩, rfl, hyk⟩
      exact ⟨hn, y, hy, rfl, hyk⟩
    · rintro ⟨hn, y, hy, rfl, hyk⟩
      exact ⟨y, ⟨hy, hn⟩, rfl, hyk⟩
  funext k
  unfold Index.drop
  by_cases hk : k ∈ attrs x
  · rw [if_pos hk, owners_index, ← ho]
    rfl
  · rw [if_neg hk]
    -- no other record has this key, so nothing is erased
    have hnot : key x ∉ ownersOf key attrs xs k := by
      rw [mem_ownersOf]
      rintro ⟨y, hy, hke, hyk⟩
      rw [List.inj_on_of_nodup_map h hy hme hke] at hyk
      exact hk hyk
    exact congrArg entry ((ho k).trans (Finset.erase_eq_of_notMem hnot))

theorem index_replace (h : (xs.map key).Nodup) (hs : ∀ y, find key xs (key x) = some y → attrs y = attrs x) :
    index key attrs (without key xs (key x) ++ [x]) = (index key attrs xs).add (key x) (attrs x) := by
  rw [index_concat]
  cases hf : find key xs (key x) with
  | none => rw [without_of_find_none hf]
  | some y => rw [index_without h hf, hs y hf, add_drop]

end InvertedIndex
