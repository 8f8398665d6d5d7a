import Mathlib.Data.Option.Basic

/-!
# Peeling `Except` computations

One bind at a time: what a successful, or a failed, sequence says of its
parts. `FailsOnly` bounds the errors a computation can end with.
-/

namespace Exits

section
variable {ε α β : Type} {x : Except ε α} {f : α → Except ε β} {b : β} {e : ε}

@[simp] theorem ok_bind (a : α) (f : α → Except ε β) : (Except.ok a >>= f) = f a := rfl

@[simp] theorem error_bind (e : ε) (f : α → Except ε β) : (Except.error e >>= f) = .error e := rfl

theorem bind_eq_ok : (x >>= f) = .ok b ↔ ∃ a, x = .ok a ∧ f a = .ok b := by
  cases x with
  | error e => simp
  | ok a => simp

theorem map_eq_ok {g : α → β} : x.map g = .ok b ↔ ∃ a, x = .ok a ∧ g a = b := by
  cases x <;> simp [Except.map]

theorem toOption_eq_some {a : α} : x.toOption = some a ↔ x = .ok a := by
  cases x with
  | error e => simp [Except.toOption]
  | ok a' => simp [Except.toOption]

theorem bind_eq_error : (x >>= f) = .error e ↔ x = .error e ∨ ∃ a, x = .ok a ∧ f a = .error e := by
  cases x with
  | error e' => simp
  | ok a => simp

end

variable {ε α β : Type} {P Q : ε → Prop}

def FailsOnly (P : ε → Prop) (x : Except ε α) : Prop := ∀ e, x = .error e → P e

theorem failsOnly_ok (a : α) : FailsOnly P (.ok a : Except ε α) := by
  intro e h
  cases h

theorem failsOnly_error {e : ε} (h : P e) : FailsOnly P (.error e : Except ε α) := by
  intro e' he
  cases he
  exact h

theorem FailsOnly.bind {x : Except ε α} {f : α → Except ε β} (hx : FailsOnly P x)
    (hf : ∀ a, x = .ok a → FailsOnly P (f a)) : FailsOnly P (x >>= f) := by
  intro e h
  obtain hx' | ⟨a, ha, hfa⟩ := bind_eq_error.mp h
  · exact hx e hx'
  · exact hf a ha e hfa

theorem FailsOnly.mono {x : Except ε α} (hx : FailsOnly P x) (h : ∀ e, P e → Q e) : FailsOnly Q x :=
  fun e he => h e (hx e he)

theorem FailsOnly.ite {c : Prop} [Decidable c] {x y : Except ε α} (hx : c → FailsOnly P x)
    (hy : ¬c → FailsOnly P y) : FailsOnly P (if c then x else y) := by
  by_cases hc : c
  · rw [if_pos hc]; exact hx hc
  · rw [if_neg hc]; exact hy hc

end Exits
