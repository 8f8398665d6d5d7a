import Mathlib.Data.List.Basic

/-!
# Each element against the ones before it

`Along P below xs`: every element of `xs` satisfies `P` together with the list of
everything before it, `below` included.
-/

namespace Prefixes

variable {α : Type} {P Q : List α → α → Prop} {below xs ys : List α} {x : α}

def Along (P : List α → α → Prop) : List α → List α → Prop
  | _, [] => True
  | below, x :: xs => P below x ∧ Along P (below ++ [x]) xs

instance decidableAlong [∀ below x, Decidable (P below x)] : ∀ below xs : List α, Decidable (Along P below xs)
  | _, [] => inferInstanceAs (Decidable True)
  | below, x :: xs =>
    have := decidableAlong (below ++ [x]) xs
    inferInstanceAs (Decidable (P below x ∧ Along P (below ++ [x]) xs))

@[simp] theorem along_nil : Along P below [] := trivial

theorem along_append : Along P below (xs ++ ys) ↔ Along P below xs ∧ Along P (below ++ xs) ys := by
  induction xs generalizing below with
  | nil => simp
  | cons x xs ih =>
    rw [List.cons_append, Along, Along, ih, List.append_assoc, and_assoc]
    rfl

theorem along_concat : Along P below (xs ++ [x]) ↔ Along P below xs ∧ P (below ++ xs) x := by
  rw [along_append, Along, Along, and_true]

variable (h : Along P below xs)
include h

theorem Along.mono (hPQ : ∀ below x, P below x → Q below x) : Along Q below xs := by
  induction xs generalizing below with
  | nil => trivial
  | cons x xs ih => exact ⟨hPQ below x h.1, ih h.2⟩

theorem Along.getElem? {i : Nat} (hx : xs[i]? = some x) : P (below ++ xs.take i) x := by
  induction xs generalizing below i with
  | nil => cases hx
  | cons y xs ih =>
    cases i with
    | zero =>
      cases hx
      simpa using h.1
    | succ i => simpa using ih h.2 hx

theorem Along.of_mem (hx : x ∈ xs) : ∃ below, P below x := by
  induction xs generalizing below with
  | nil => cases hx
  | cons y xs ih =>
    cases hx with
    | head => exact ⟨below, h.1⟩
    | tail _ hx => exact ih h.2 hx

end Prefixes
