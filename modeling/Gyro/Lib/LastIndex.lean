import Mathlib.Data.List.Basic
import Mathlib.Data.List.Induction

/-!
# The last element with a property

`lastIndex p xs` is the position of the last element of `xs` that satisfies
`p`. It follows a list that grows and shrinks at its end.
-/

namespace LastIndex

variable {α : Type} (p : α → Bool)

def lastIndex : List α → Option Nat
  | [] => none
  | x :: xs =>
    match lastIndex xs with
    | some i => some (i + 1)
    | none => if p x then some 0 else none

variable {p} {x : α} {xs : List α} {i : Nat}

theorem lastIndex_concat (xs : List α) (x : α) :
    lastIndex p (xs ++ [x]) = if p x then some xs.length else lastIndex p xs := by
  induction xs with
  | nil => by_cases hx : p x <;> simp [lastIndex, hx]
  | cons y ys ih =>
    rw [List.cons_append, lastIndex, ih]
    by_cases hx : p x
    · simp [hx]
    · simp [hx, lastIndex]

theorem lastIndex_map {β : Type} {q : β → Bool} (f : α → β) (xs : List α) :
    lastIndex q (xs.map f) = lastIndex (fun x => q (f x)) xs := by
  induction xs with
  | nil => rfl
  | cons x xs ih => rw [List.map_cons, lastIndex, lastIndex, ih]

theorem lastIndex_lt (h : lastIndex p xs = some i) : i < xs.length := by
  induction xs generalizing i with
  | nil => cases h
  | cons y ys ih =>
    rw [lastIndex] at h
    split at h
    · rename_i j hj
      cases h
      have := ih hj
      simp only [List.length_cons]
      omega
    · split at h
      · cases h; simp
      · cases h

theorem lastIndex_holds (h : lastIndex p xs = some i) : ∃ x, xs[i]? = some x ∧ p x = true := by
  induction xs generalizing i with
  | nil => cases h
  | cons y ys ih =>
    rw [lastIndex] at h
    split at h
    · rename_i j hj
      cases h
      simpa using ih hj
    · split at h
      · rename_i hy
        cases h
        exact ⟨y, rfl, hy⟩
      · cases h

theorem getElem?_concat_cases {y : α} (h : (xs ++ [y])[i]? = some x) :
    (i < xs.length ∧ xs[i]? = some x) ∨ (i = xs.length ∧ x = y) := by
  by_cases hi : i < xs.length
  · rw [List.getElem?_append_left hi] at h
    exact .inl ⟨hi, h⟩
  · have hl : i < (xs ++ [y]).length := (List.getElem?_eq_some_iff.mp h).1
    rw [List.length_append, List.length_singleton] at hl
    have hlen : i = xs.length := by omega
    subst hlen
    rw [List.getElem?_concat_length] at h
    cases h
    exact .inr ⟨rfl, rfl⟩

theorem lastIndex_last (h : lastIndex p xs = some i) {j : Nat} (hi : i < j) (hx : xs[j]? = some x) : p x = false := by
  induction xs using List.reverseRecOn generalizing i j x with
  | nil => cases h
  | append_singleton ys y ih =>
    rw [lastIndex_concat] at h
    obtain ⟨hj, hx'⟩ | ⟨rfl, rfl⟩ := getElem?_concat_cases hx
    · split at h
      · cases h; omega
      · exact ih h hi hx'
    · split at h
      · cases h; omega
      · rename_i hy
        simpa using hy

theorem lastIndex_none (h : lastIndex p xs = none) (hx : xs[i]? = some x) : p x = false := by
  induction xs using List.reverseRecOn generalizing i x with
  | nil => cases hx
  | append_singleton ys y ih =>
    rw [lastIndex_concat] at h
    split at h
    · cases h
    · rename_i hy
      obtain ⟨_, hx'⟩ | ⟨rfl, rfl⟩ := getElem?_concat_cases hx
      · exact ih h hx'
      · simpa using hy

end LastIndex
