import Mathlib.Order.Nat
import Mathlib.Data.List.Basic

/-!
# Delivery by high-water mark

Numbered items of several queues are tried in turn. A mark for each queue is the number
of its last item that got through, so what it means depends on the failures of a pass
being closed upwards.
-/

namespace HighWater

open List

section
variable {ι κ : Type} [DecidableEq κ] (key : ι → κ) (num : ι → Nat) (ok : ι → Bool)

def deliver : (κ → Nat) → List ι → (κ → Nat) × List ι
  | mark, [] => (mark, [])
  | mark, i :: rest =>
    if num i ≤ mark (key i) then deliver mark rest
    else
      let after := deliver (if ok i then Function.update mark (key i) (num i) else mark) rest
      (after.1, i :: after.2)

def InOrder (items : List ι) : Prop := items.Pairwise fun i j => key i = key j → num i < num j

def FailsUpward (mark : κ → Nat) (items : List ι) : Prop :=
  ∀ i ∈ items, ∀ j ∈ items, key i = key j → mark (key i) < num i → num i ≤ num j → ok j → ok i

/-- The mark of a queue has moved from `b` to `m`: to the last item beyond `b` that got through. -/
structure Moved (items : List ι) (k : κ) (b m : Nat) : Prop where
  mono : b ≤ m
  last : b < m → ∃ i ∈ items, key i = k ∧ num i = m ∧ ok i
  above : ∀ i ∈ items, key i = k → b < num i → ok i → num i ≤ m

end

variable {ι κ : Type} [DecidableEq κ] {key : ι → κ} {num : ι → Nat} {ok : ι → Bool} {mark : κ → Nat}
  {items : List ι} {k : κ} {b m : Nat} {i : ι}

theorem deliver_tried (h : InOrder key num items) :
    (deliver key num ok mark items).2 = items.filter fun i => mark (key i) < num i := by
  induction items generalizing mark with
  | nil => rfl
  | cons i rest ih =>
    obtain ⟨hf, hr⟩ := pairwise_cons.mp h
    unfold deliver
    by_cases hle : num i ≤ mark (key i)
    · rw [if_pos hle, ih hr, filter_cons_of_neg (by simpa using hle)]
    · rw [if_neg hle, filter_cons_of_pos (by simpa using hle)]
      simp only [ih hr, List.cons.injEq, true_and]
      apply filter_congr
      intro j hj
      -- A success moves only the mark of its own queue, to below what is left of it.
      by_cases hk : key j = key i
      · have hl : num i < num j := hf j hj hk.symm
        have ha : mark (key i) < num j := by omega
        split_ifs <;> simp [hk, hl, ha]
      · split_ifs <;> simp [Function.update_of_ne hk]

theorem Moved.skip (h : Moved key num ok items k b m) (hs : key i = k → b < num i → ¬ ok i) :
    Moved key num ok (i :: items) k b m := by
  refine ⟨h.mono, fun hl => ?_, fun j hj hk hl ho => ?_⟩
  · obtain ⟨j, hj, ha⟩ := h.last hl
    exact ⟨j, mem_cons_of_mem _ hj, ha⟩
  · rcases mem_cons.mp hj with rfl | hi
    · exact absurd ho (hs hk hl)
    · exact h.above j hi hk hl ho

theorem Moved.success (h : Moved key num ok items k (num i) m) (hk : key i = k) (hp : b < num i) (ho : ok i)
    (ha : ∀ j ∈ items, key j = k → num i < num j) : Moved key num ok (i :: items) k b m := by
  refine ⟨hp.le.trans h.mono, fun _ => ?_, fun j hj hk' _ ho' => ?_⟩
  · by_cases hl : num i < m
    · obtain ⟨j, hj, hla⟩ := h.last hl
      exact ⟨j, mem_cons_of_mem _ hj, hla⟩
    · exact ⟨i, mem_cons_self, hk, le_antisymm h.mono (not_lt.mp hl), ho⟩
  · rcases mem_cons.mp hj with rfl | hi
    · exact h.mono
    · exact h.above j hi hk' (ha j hi hk') ho'

theorem deliver_moved (h : InOrder key num items) (k : κ) :
    Moved key num ok items k (mark k) ((deliver key num ok mark items).1 k) := by
  induction items generalizing mark with
  | nil => exact ⟨le_rfl, fun hl => absurd hl (lt_irrefl _), fun i hi => absurd hi not_mem_nil⟩
  | cons i rest ih =>
    obtain ⟨hf, hr⟩ := pairwise_cons.mp h
    unfold deliver
    by_cases hle : num i ≤ mark (key i)
    · simp only [if_pos hle]
      exact (ih hr).skip fun hk hl => absurd hl (not_lt.mpr (hk ▸ hle))
    · simp only [if_neg hle]
      by_cases ho : ok i
      · simp only [ho, if_true]
        have hmo := @ih (Function.update mark (key i) (num i)) hr
        by_cases hk : key i = k
        · subst hk
          rw [Function.update_self] at hmo
          exact hmo.success rfl (not_le.mp hle) ho fun j hj hk => hf j hj hk.symm
        · rw [Function.update_of_ne (Ne.symm hk)] at hmo
          exact hmo.skip fun heq => absurd heq hk
      · simp only [ho, Bool.false_eq_true, if_false]
        exact (ih hr).skip fun _ _ => ho

/-- Where failures are closed upwards, the marks tell what got through. -/
theorem le_deliver_iff (h : InOrder key num items) (hf : FailsUpward key num ok mark items) (hi : i ∈ items)
    (hp : mark (key i) < num i) : num i ≤ (deliver key num ok mark items).1 (key i) ↔ ok i := by
  have ho := @deliver_moved _ _ _ key num ok mark items h (key i)
  constructor
  · intro hle
    obtain ⟨j, hj, hk, hn, hok⟩ := ho.last (hp.trans_le hle)
    exact hf i hi j hj hk.symm hp (hn ▸ hle) hok
  · exact ho.above i hi rfl hp

end HighWater
