import Mathlib.Data.List.Nodup
import Mathlib.Data.List.Perm.Basic

/-!
# Sorting by a comparison

What a sorting routine promises, given a strict weak order, and the insertion sort of
standard libraries for short ranges, which a bad comparison can make reverse a list.
-/

namespace ShortSort

open List

variable {α : Type}

/-- A strict weak order: asymmetric, and incomparability carries over. -/
structure StrictWeakOrder (lt : α → α → Bool) : Prop where
  asymm : ∀ x y, lt x y = true → lt y x = false
  negTrans : ∀ x y z, lt x y = false → lt y z = false → lt x z = false

def Sorts (sort : (α → α → Bool) → List α → List α) : Prop :=
  ∀ lt, StrictWeakOrder lt → ∀ xs, (sort lt xs).Perm xs ∧ (sort lt xs).Pairwise fun x y => lt y x = false

variable (lt : α → α → Bool)

def insertBack (x : α) : List α → List α
  | [] => [x]
  | y :: ys => if lt x y then y :: insertBack x ys else x :: y :: ys

def insertNext (rev : List α) (x : α) : List α :=
  match rev.getLast? with
  | none => [x]
  | some first => if lt x first then rev ++ [x] else insertBack lt x rev

def insertionSort (xs : List α) : List α := (xs.foldl (insertNext lt) []).reverse

variable {lt} {x : α} {rev : List α}

theorem perm_insertBack (x : α) (rev : List α) : (insertBack lt x rev).Perm (x :: rev) := by
  induction rev with
  | nil => exact List.Perm.refl _
  | cons y ys ih =>
    unfold insertBack
    split
    · exact (ih.cons y).trans (List.Perm.swap x y ys)
    · exact List.Perm.refl _

theorem pairwise_insertBack (hl : StrictWeakOrder lt) (h : rev.Pairwise fun a b => lt a b = false) :
    (insertBack lt x rev).Pairwise fun a b => lt a b = false := by
  induction rev with
  | nil => exact pairwise_singleton _ _
  | cons y ys ih =>
    obtain ⟨hy, hs⟩ := pairwise_cons.mp h
    unfold insertBack
    split
    · next hx =>
      apply pairwise_cons.mpr
      refine ⟨?_, ih hs⟩
      intro z hz
      rcases mem_cons.mp ((perm_insertBack x ys).mem_iff.mp hz) with rfl | hz
      · exact hl.asymm z y hx
      · exact hy z hz
    · next hx =>
      have hx' : lt x y = false := Bool.not_eq_true _ ▸ hx
      apply pairwise_cons.mpr
      refine ⟨?_, h⟩
      intro z hz
      rcases mem_cons.mp hz with rfl | hz
      · exact hx'
      · exact hl.negTrans x y z hx' (hy z hz)

theorem perm_insertNext (rev : List α) (x : α) : (insertNext lt rev x).Perm (x :: rev) := by
  unfold insertNext
  split
  · next hn =>
    rw [List.getLast?_eq_none_iff.mp hn]
  · split
    · exact perm_append_singleton x rev
    · exact perm_insertBack x rev

theorem pairwise_insertNext (hl : StrictWeakOrder lt) (h : rev.Pairwise fun a b => lt a b = false) :
    (insertNext lt rev x).Pairwise fun a b => lt a b = false := by
  unfold insertNext
  split
  · exact pairwise_singleton _ _
  · next first hf =>
    split
    · next hx =>
      obtain ⟨init, rfl⟩ := List.getLast?_eq_some_iff.mp hf
      have ha : lt first x = false := hl.asymm x first hx
      apply pairwise_append.mpr
      refine ⟨h, pairwise_singleton _ _, ?_⟩
      intro y hy z hz
      rw [mem_singleton.mp hz]
      rcases mem_append.mp hy with hy | hy
      · have hb := (pairwise_append.mp h).2.2 y hy first mem_cons_self
        exact hl.negTrans y first x hb ha
      · rw [mem_singleton.mp hy]
        exact ha
    · exact pairwise_insertBack hl h

theorem foldl_insertNext (hl : StrictWeakOrder lt) (xs rev : List α) (h : rev.Pairwise fun a b => lt a b = false) :
    (xs.foldl (insertNext lt) rev).Perm (xs ++ rev) ∧
      (xs.foldl (insertNext lt) rev).Pairwise fun a b => lt a b = false := by
  induction xs generalizing rev with
  | nil => exact ⟨List.Perm.refl _, h⟩
  | cons x xs ih =>
    obtain ⟨hp, hs⟩ := ih (insertNext lt rev x) (pairwise_insertNext hl h)
    refine ⟨?_, hs⟩
    apply hp.trans
    exact ((perm_insertNext rev x).append_left xs).trans perm_middle

theorem sorts_insertionSort : Sorts (@insertionSort α) := by
  intro lt hl xs
  obtain ⟨hp, hs⟩ := foldl_insertNext hl xs [] List.Pairwise.nil
  rw [append_nil] at hp
  refine ⟨(reverse_perm _).trans hp, ?_⟩
  unfold insertionSort
  rw [pairwise_reverse]
  exact hs

theorem insertionSort_of_all {xs : List α} (h : xs.Pairwise fun x y => lt y x = true) :
    insertionSort lt xs = xs.reverse := by
  have hf : ∀ rev : List α, (rev ++ xs).Pairwise (fun x y => lt y x = true) →
      xs.foldl (insertNext lt) rev = rev ++ xs := by
    induction xs with
    | nil => simp
    | cons x xs ih =>
      intro rev hr
      have hn : insertNext lt rev x = rev ++ [x] := by
        unfold insertNext
        split
        · next ho =>
          rw [List.getLast?_eq_none_iff.mp ho]
          rfl
        · next first hi =>
          have hme := List.mem_of_getLast? hi
          rw [if_pos ((pairwise_append.mp hr).2.2 first hme x mem_cons_self)]
      rw [foldl_cons, hn, ih (pairwise_cons.mp h).2]
      · rw [append_assoc]
        rfl
      · rw [append_assoc]
        exact hr
  unfold insertionSort
  rw [hf [] h]
  rfl

end ShortSort
