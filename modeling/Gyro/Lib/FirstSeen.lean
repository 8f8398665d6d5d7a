import Mathlib.Data.List.Basic

/-!
# Taking what has not been seen

An item is taken when its key is neither known before nor that of an item taken earlier.
-/

namespace FirstSeen

variable {α κ : Type} [DecidableEq κ] {key : α → κ} {seen : List κ} {a : α} {l : List α}

def firsts (key : α → κ) : List κ → List α → List α
  | _, [] => []
  | seen, a :: l => if key a ∈ seen then firsts key seen l else a :: firsts key (seen ++ [key a]) l

theorem firsts_replicate_append {n : Nat} (hs : key a ∈ seen) :
    firsts key seen (List.replicate n a ++ l) = firsts key seen l := by
  induction n with
  | zero => rfl
  | succ n ih => simp [List.replicate_succ, firsts, hs, ih]

theorem firsts_flatMap_replicate {n : α → Nat} (hp : ∀ a ∈ l, 0 < n a) :
    firsts key seen (l.flatMap fun a => List.replicate (n a) a) = firsts key seen l := by
  induction l generalizing seen with
  | nil => rfl
  | cons a l ih =>
    have hr := fun seen => @ih seen fun b hb => hp b (List.mem_cons_of_mem _ hb)
    obtain ⟨m, hm⟩ := Nat.exists_eq_succ_of_ne_zero (Nat.ne_of_gt (hp a List.mem_cons_self))
    rw [List.flatMap_cons, hm, List.replicate_succ, List.cons_append]
    unfold firsts
    by_cases hs : key a ∈ seen
    · rw [if_pos hs, if_pos hs, firsts_replicate_append hs, hr]
    · rw [if_neg hs, if_neg hs, firsts_replicate_append (by simp), hr]

end FirstSeen
