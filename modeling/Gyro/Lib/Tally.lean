import Mathlib.Data.List.DropRight
import Mathlib.Data.UInt

/-!
# Votes counted in a sliding window

A window holds the newest votes, oldest first, beside a word for every candidate that
counts its votes modulo `2 ^ 32`.
-/

namespace Tally

variable {α : Type} [DecidableEq α]

def incr (count : α → UInt32) (v : α) : α → UInt32 := fun u => if u = v then count u + 1 else count u

def decr (count : α → UInt32) (v : α) : α → UInt32 := fun u => if u = v then count u - 1 else count u

def Counts (count : α → UInt32) (xs : List α) : Prop := ∀ v, count v = UInt32.ofNat (xs.count v)

variable {count count' : α → UInt32} {xs ys : List α} {v : α}

theorem counts_nil : Counts (fun _ : α => 0) [] := by
  intro v
  rfl

theorem Counts.unique (h : Counts count xs) (h' : Counts count' xs) : count = count' := by
  funext v
  rw [h v, h' v]

theorem Counts.perm (h : Counts count xs) (hp : xs.Perm ys) : Counts count ys := by
  intro v
  rw [h v, hp.count_eq]

theorem Counts.incr_cons (h : Counts count xs) : Counts (incr count v) (v :: xs) := by
  intro u
  by_cases hu : u = v
  · simp [incr, hu, h v, UInt32.ofNat_add]
  · simp [incr, hu, h u, List.count_cons_of_ne (Ne.symm hu)]

theorem Counts.decr_cons (h : Counts count (v :: xs)) : Counts (decr count v) xs := by
  intro u
  have hu := h u
  by_cases heq : u = v
  · subst heq
    rw [List.count_cons_self] at hu
    simp [decr, hu]
  · rw [List.count_cons_of_ne (Ne.symm heq)] at hu
    simp [decr, heq, hu]

theorem Counts.incr_concat (h : Counts count xs) : Counts (incr count v) (xs ++ [v]) :=
  h.incr_cons.perm (List.perm_append_singleton v xs).symm

theorem Counts.decr_concat (h : Counts count (xs ++ [v])) : Counts (decr count v) xs :=
  (h.perm (List.perm_append_singleton v xs)).decr_cons

end Tally
