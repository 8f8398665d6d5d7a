import Mathlib.Data.List.Nodup

/-!
# An index of a list by an attribute

A map gives for an attribute the position of the element that has it. The list grows at
its end, is changed in place and is cut.
-/

namespace Positions

open List

variable {α κ : Type}

def Indexes (f : α → Option κ) (xs : List α) (m : κ → Option Nat) : Prop :=
  ∀ k j, m k = some j ↔ ∃ x, xs[j]? = some x ∧ f x = some k

section
variable [DecidableEq κ]

def assign (m : κ → Option Nat) (k : κ) (j : Nat) : κ → Option Nat := fun k' => if k' = k then some j else m k'

def erase (m : κ → Option Nat) (k : κ) : κ → Option Nat := fun k' => if k' = k then none else m k'

/-- Erases one key after the other; `none` at a key that is not there. -/
def eraseEach (m : κ → Option Nat) : List κ → Option (κ → Option Nat)
  | [] => some m
  | k :: ks => if (m k).isSome then eraseEach (erase m k) ks else none

end

variable {f : α → Option κ} {xs ys : List α} {m m' : κ → Option Nat} {x y : α} {k : κ} {j n : Nat}

theorem indexes_nil : Indexes f [] fun _ => none := by
  intro k j
  simp

section
variable (h : Indexes f xs m)
include h

theorem Indexes.ext (h' : Indexes f xs m') : m = m' := by
  funext k
  apply Option.ext
  intro j
  rw [h k j, h' k j]

theorem Indexes.congr (ha : xs.map f = ys.map f) : Indexes f ys m := by
  intro k j
  have ht : (xs[j]?).map f = (ys[j]?).map f := by rw [← List.getElem?_map, ← List.getElem?_map, ha]
  have hi : ∀ zs : List α, (∃ x, zs[j]? = some x ∧ f x = some k) ↔ (zs[j]?).map f = some (some k) := by
    intro zs
    rw [Option.map_eq_some_iff]
  rw [h k j, hi xs, hi ys, ht]

theorem Indexes.set (hj : xs[j]? = some x) (hy : f y = f x) : Indexes f (xs.set j y) m := by
  apply h.congr
  obtain ⟨hl, hg⟩ := List.getElem?_eq_some_iff.mp hj
  rw [map_set, hy, ← hg]
  apply ext_getElem
  · simp
  · intro i hi hi'
    by_cases hij : i = j
    · subst hij
      simp
    · simp [getElem_set_ne (Ne.symm hij)]

theorem Indexes.find (hj : xs[j]? = some x) (hx : f x = some k) : m k = some j :=
  (h k j).mpr ⟨x, hj, hx⟩

theorem Indexes.inj {i : Nat} (hi : xs[i]? = some x) (hj : xs[j]? = some y)
    (hx : f x = some k) (hy : f y = some k) : i = j :=
  Option.some.inj ((h.find hi hx).symm.trans (h.find hj hy))

end

theorem getElem?_concat_eq_some : (xs ++ [x])[j]? = some y ↔ xs[j]? = some y ∨ j = xs.length ∧ y = x := by
  rcases Nat.lt_trichotomy j xs.length with hl | heq | hg
  · rw [List.getElem?_append_left hl]
    have hn := Nat.ne_of_lt hl
    simp [hn]
  · subst heq
    simp [eq_comm]
  · have hn := Nat.ne_of_gt hg
    have hnn : (xs ++ [x])[j]? = none := List.getElem?_eq_none (by rw [length_append]; exact hg)
    simp [hn, hnn, Nat.le_of_lt hg]

theorem Indexes.concat_none (h : Indexes f xs m) (hx : f x = none) : Indexes f (xs ++ [x]) m := by
  intro k j
  rw [h k j]
  constructor
  · rintro ⟨y, hy, hk⟩
    exact ⟨y, getElem?_concat_eq_some.mpr (Or.inl hy), hk⟩
  · rintro ⟨y, hy, hk⟩
    rcases getElem?_concat_eq_some.mp hy with hy | ⟨-, rfl⟩
    · exact ⟨y, hy, hk⟩
    · rw [hx] at hk
      cases hk

theorem Indexes.nodup_filterMap (h : Indexes f xs m) : (xs.filterMap f).Nodup := by
  rw [List.Nodup, pairwise_filterMap, pairwise_iff_getElem]
  intro i j hi hj hl k hk k' hk' heq
  subst heq
  exact Nat.ne_of_lt hl (h.inj (List.getElem?_eq_getElem hi) (List.getElem?_eq_getElem hj) hk hk')

variable [DecidableEq κ]

theorem Indexes.concat (h : Indexes f xs m) (hr : m k = none) (hx : f x = some k) :
    Indexes f (xs ++ [x]) (assign m k xs.length) := by
  intro k' j
  unfold assign
  constructor
  · intro hk'
    split at hk'
    · next heq =>
      cases hk'
      exact ⟨x, by simp, heq ▸ hx⟩
    · obtain ⟨y, hy, hk⟩ := (h k' j).mp hk'
      exact ⟨y, getElem?_concat_eq_some.mpr (Or.inl hy), hk⟩
  · rintro ⟨y, hy, hk'⟩
    rcases getElem?_concat_eq_some.mp hy with hy | ⟨rfl, rfl⟩
    · have hf := (h k' j).mpr ⟨y, hy, hk'⟩
      rw [if_neg, hf]
      rintro rfl
      rw [hr] at hf
      cases hf
    · rw [if_pos (Option.some.inj (hk'.symm.trans hx))]

theorem eraseEach_eq {ks : List κ} (hn : ks.Nodup) (hi : ∀ k ∈ ks, (m k).isSome) :
    eraseEach m ks = some fun k => if k ∈ ks then none else m k := by
  induction ks generalizing m with
  | nil => simp [eraseEach]
  | cons k ks ih =>
    obtain ⟨hnw, hn⟩ := nodup_cons.mp hn
    unfold eraseEach
    rw [if_pos (hi k mem_cons_self), ih hn]
    · congr 1
      funext k'
      unfold erase
      by_cases heq : k' = k
      · simp [heq]
      · simp [heq]
    · intro k' hk'
      have hne : k' ≠ k := fun heq => hnw (heq ▸ hk')
      simpa [erase, hne] using hi k' (mem_cons_of_mem k hk')

theorem Indexes.cut (h : Indexes f xs m) (n : Nat) :
    eraseEach m ((xs.drop n).filterMap f) = some (fun k => if k ∈ (xs.drop n).filterMap f then none else m k) ∧
      Indexes f (xs.take n) fun k => if k ∈ (xs.drop n).filterMap f then none else m k := by
  have hme : ∀ k j, m k = some j → (k ∈ (xs.drop n).filterMap f ↔ n ≤ j) := by
    intro k j hk
    obtain ⟨x, hx, hkx⟩ := (h k j).mp hk
    rw [mem_filterMap]
    constructor
    · rintro ⟨y, hy, hky⟩
      obtain ⟨i, hi⟩ := List.mem_iff_getElem?.mp hy
      rw [List.getElem?_drop] at hi
      rw [← h.inj hi hx hky hkx]
      exact Nat.le_add_right n i
    · intro hle
      refine ⟨x, List.mem_iff_getElem?.mpr ⟨j - n, ?_⟩, hkx⟩
      rw [List.getElem?_drop, Nat.add_sub_cancel' hle]
      exact hx
  constructor
  · apply eraseEach_eq
    · exact h.nodup_filterMap.sublist ((drop_sublist n xs).filterMap f)
    · intro k hk
      obtain ⟨x, hx, hkx⟩ := mem_filterMap.mp hk
      obtain ⟨i, hi⟩ := List.mem_iff_getElem?.mp (mem_of_mem_drop hx)
      rw [h.find hi hkx]
      rfl
  · intro k j
    constructor
    · intro hk
      dsimp only at hk
      split at hk
      · cases hk
      · next hnot =>
        obtain ⟨x, hx, hkx⟩ := (h k j).mp hk
        refine ⟨x, ?_, hkx⟩
        rw [List.getElem?_take_of_lt (Nat.lt_of_not_le (mt (hme k j hk).mpr hnot))]
        exact hx
    · rintro ⟨x, hx, hkx⟩
      have hl : j < n := by
        have hlen := (List.getElem?_eq_some_iff.mp hx).1
        rw [length_take] at hlen
        omega
      rw [List.getElem?_take_of_lt hl] at hx
      have hk := h.find hx hkx
      dsimp only
      rw [if_neg (mt (hme k j hk).mp (Nat.not_le.mpr hl)), hk]

end Positions
