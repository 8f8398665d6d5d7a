import Mathlib

/-!
# Combinations

`Combinator` (`common/combinator.h`), whose recursion works on one vector of indexes, and
`combinations_count` (`common/combinator.cpp`).
-/

namespace Gyro

structure Combinator (α : Type) where
  origin : List α
  combinations : List (List α)
  current : List ℕ

namespace Combinator
variable {α : Type}

/-- The `comb` of the indexes. -/
def chosen (origin : List α) (current : List ℕ) : List α := current.filterMap (origin[·]?)

/-- A round of the loop in `doCombine`; `deeper` is the call for the elements behind. -/
def combineRound (origin : List α) (k : ℕ) (deeper : ℕ → List ℕ × List (List α) → List ℕ × List (List α)) :
    List ℕ × List (List α) → ℕ → List ℕ × List (List α)
  | (current, combinations), i =>
    let current := current.dropLast ++ [i]
    if 1 < k then deeper (i + 1) (current, combinations)
    else (current, combinations ++ [chosen origin current])

/-- `doCombine(from, k)`, on `current` and `combinations`. -/
def doCombine (origin : List α) : ℕ → ℕ → List ℕ × List (List α) → List ℕ × List (List α)
  | 0, _, st => st
  | k + 1, start, (current, combinations) =>
    let st := (List.range' start (origin.length - (k + 1) + 1 - start)).foldl
      (combineRound origin (k + 1) (doCombine origin k)) (current ++ [0], combinations)
    (st.1.dropLast, st.2)

/-- What the call returns, `none` where it throws, and the object after it. -/
def combine (c : Combinator α) (k : ℕ) : Option (List (List α)) × Combinator α :=
  if c.origin.length < k then (none, c)
  else if k = 0 then (none, c)
  else
    let st := doCombine c.origin k 0 (c.current, [])
    (some st.2, { c with current := st.1, combinations := st.2 })

end Combinator

/-- `combinations_count`; `none` where it throws. -/
def combinationsCount (k n : UInt32) : Option UInt64 :=
  if k > n then none
  else some ((List.range' 1 k.toNat).foldl (fun (c, n) i => (c * n.toUInt64 / UInt64.ofNat i, n - 1)) ((1 : UInt64), n)).1

namespace Combinator
variable {α : Type} {origin : List α}

/-- The choices of `k` elements, those with the first element first. -/
def selections : ℕ → List α → List (List α)
  | 0, _ => [[]]
  | _ + 1, [] => []
  | k + 1, x :: xs => (selections k xs).map (x :: ·) ++ selections (k + 1) xs

theorem selections_perm (k : ℕ) (xs : List α) : (selections k xs).Perm (xs.sublistsLen k) := by
  induction xs generalizing k with
  | nil => cases k <;> simp [selections]
  | cons x xs ih =>
    cases k with
    | zero => simp [selections]
    | succ k =>
      rw [List.sublistsLen_succ_cons]
      exact (((ih k).map _).append (ih (k + 1))).trans List.perm_append_comm

theorem selections_eq_nil {k : ℕ} {xs : List α} (h : xs.length < k) : selections k xs = [] := by
  have hp := selections_perm k xs
  rw [List.sublistsLen_of_length_lt h] at hp
  exact hp.eq_nil

section
variable {k : ℕ} {current : List ℕ} {combs : List (List α)} {deeper : ℕ → List ℕ × List (List α) → List ℕ × List (List α)}

theorem chosen_append {i : ℕ} {x : α} (hx : origin[i]? = some x) :
    chosen origin (current ++ [i]) = chosen origin current ++ [x] := by
  simp [chosen, hx]

/-- The loop, when a round adds the selections that begin with its element. -/
theorem foldl_combineRound (hr : ∀ y combs i x, origin[i]? = some x →
      combineRound origin (k + 1) deeper (current ++ [y], combs) i = (current ++ [i],
        combs ++ (selections k (origin.drop (i + 1))).map fun l => chosen origin current ++ x :: l))
    (m start y : ℕ) (hm : m = origin.length - k - start) :
    ∃ z, (List.range' start m).foldl (combineRound origin (k + 1) deeper) (current ++ [y], combs) = (current ++ [z],
      combs ++ (selections (k + 1) (origin.drop start)).map (chosen origin current ++ ·)) := by
  induction m generalizing start y combs with
  | zero =>
    rw [selections_eq_nil (by simp only [List.length_drop]; omega)]
    exact ⟨y, by simp⟩
  | succ m ih =>
    have hl : start < origin.length := by omega
    obtain ⟨z, hz⟩ := @ih _ (start + 1) start (by omega)
    refine ⟨z, ?_⟩
    rw [List.range'_succ, List.foldl_cons, hr _ _ _ _ (List.getElem?_eq_getElem hl), hz, List.drop_eq_getElem_cons hl,
      selections]
    simp

/-- A call adds the selections behind what has been chosen, and leaves that as it was. -/
theorem doCombine_eq (hk : k + 1 ≤ origin.length) (start : ℕ) : doCombine origin (k + 1) start (current, combs) =
    (current, combs ++ (selections (k + 1) (origin.drop start)).map (chosen origin current ++ ·)) := by
  induction k generalizing start current combs with
  | zero =>
    have hr : ∀ y combs i x, origin[i]? = some x →
        combineRound origin 1 (doCombine origin 0) (current ++ [y], combs) i = (current ++ [i],
          combs ++ (selections 0 (origin.drop (i + 1))).map fun l => chosen origin current ++ x :: l) := by
      intro y combs i x hx
      simp [combineRound, selections, chosen_append hx]
    obtain ⟨z, hz⟩ := @foldl_combineRound _ _ _ _ combs _ hr (origin.length - 1 + 1 - start) start 0 (by omega)
    rw [doCombine, hz]
    simp
  | succ k ih =>
    have hr : ∀ y combs i x, origin[i]? = some x →
        combineRound origin (k + 1 + 1) (doCombine origin (k + 1)) (current ++ [y], combs) i = (current ++ [i],
          combs ++ (selections (k + 1) (origin.drop (i + 1))).map fun l => chosen origin current ++ x :: l) := by
      intro y combs i x hx
      simp [combineRound, ih (by omega), chosen_append hx]
    obtain ⟨z, hz⟩ := @foldl_combineRound _ _ _ _ combs _ hr (origin.length - (k + 1 + 1) + 1 - start) start 0
      (by omega)
    rw [doCombine, hz]
    simp
end

/-- A call, on an object as it was made or as another call left it. -/
theorem combine_eq {c : Combinator α} (hc : c.current = []) {k : ℕ} (hk : 1 ≤ k) (hn : k ≤ c.origin.length) :
    c.combine k = (some (selections k c.origin), { c with combinations := selections k c.origin }) := by
  obtain ⟨k, rfl⟩ : ∃ j, k = j + 1 := ⟨k - 1, by omega⟩
  have ha := @doCombine_eq _ c.origin k [] [] hn 0
  simp [combine, hc, ha, show ¬ c.origin.length < k + 1 by omega, chosen]

theorem combine_keeps {c : Combinator α} (hc : c.current = []) (k : ℕ) :
    (c.combine k).2.current = [] ∧ (c.combine k).2.origin = c.origin := by
  by_cases hk : 1 ≤ k ∧ k ≤ c.origin.length
  · simp [combine_eq hc hk.1 hk.2, hc]
  · unfold combine
    grind

/-- The object after some calls. -/
def afterCalls (origin : List α) (calls : List ℕ) : Combinator α :=
  calls.foldl (fun c k => (c.combine k).2) ⟨origin, [], []⟩

theorem afterCalls_keeps (calls : List ℕ) :
    (afterCalls origin calls).current = [] ∧ (afterCalls origin calls).origin = origin := by
  induction calls using List.reverseRecOn with
  | nil => exact ⟨rfl, rfl⟩
  | append_singleton calls k ih =>
    rw [afterCalls, List.foldl_concat]
    have hk := combine_keeps ih.1 k
    exact ⟨hk.1, hk.2.trans ih.2⟩

end Combinator

/-- The loop of `combinations_count` goes along the row of the triangle: it holds `n.choose i` after round `i`. -/
theorem combinationsCount_loop {n : UInt32} (ha : n.toNat * n.toNat.choose (n.toNat / 2) < 2 ^ 64) {i : ℕ}
    (hi : i ≤ n.toNat) {st : UInt64 × UInt32}
    (hs : st = (List.range' 1 i).foldl (fun (c, n) i => (c * n.toUInt64 / UInt64.ofNat i, n - 1)) ((1 : UInt64), n)) :
    st.1.toNat = n.toNat.choose i ∧ st.2.toNat = n.toNat - i := by
  induction i generalizing st with
  | zero => simp [hs]
  | succ i ih =>
    obtain ⟨hc, hn⟩ := ih (by omega) rfl
    rw [List.range'_concat, List.foldl_concat] at hs
    have hbound : n.toNat.choose i * (n.toNat - i) < 2 ^ 64 := by
      calc n.toNat.choose i * (n.toNat - i)
          ≤ n.toNat.choose (n.toNat / 2) * n.toNat := Nat.mul_le_mul (Nat.choose_le_middle _ _) (by omega)
        _ < 2 ^ 64 := by rwa [Nat.mul_comm]
    have hr : (UInt64.ofNat (1 + 1 * i)).toNat = i + 1 := by
      have := n.toNat_lt
      rw [UInt64.toNat_ofNat'] <;> omega
    subst hs
    constructor
    · rw [UInt64.toNat_div, UInt64.toNat_mul, UInt32.toNat_toUInt64, hc, hn, hr, Nat.mod_eq_of_lt hbound,
        ← Nat.choose_succ_right_eq, Nat.mul_div_cancel _ (Nat.succ_pos i)]
    · rw [UInt32.toNat_sub_of_le _ _ (by rw [UInt32.le_iff_toNat_le, hn]; simp; omega), hn]
      simp
      omega

theorem combinationsCount_eq {k n : UInt32} (hk : k ≤ n) (ha : n.toNat * n.toNat.choose (n.toNat / 2) < 2 ^ 64) :
    ∃ c, combinationsCount k n = some c ∧ c.toNat = n.toNat.choose k.toNat := by
  have hl := combinationsCount_loop ha (UInt32.le_iff_toNat_le.mp hk) rfl
  have ht : ¬ k > n := UInt32.not_lt.mpr hk
  exact ⟨_, if_neg ht, hl.1⟩

/-- Every call of `combine` lists each choice of `k` elements once, in the order they have; `combinations_count` says
how many where the largest of the row does not overflow. -/
theorem combinator_enumerates {α : Type} (origin : List α) (hd : origin.Nodup) :
    (∀ (calls : List ℕ) (k : ℕ), 1 ≤ k → k ≤ origin.length →
      ∃ r, ((Combinator.afterCalls origin calls).combine k).1 = some r ∧ r.length = origin.length.choose k ∧ r.Nodup ∧
        ∀ l, l ∈ r ↔ l.Sublist origin ∧ l.length = k) ∧
    ∀ k n : UInt32, k ≤ n → n.toNat * n.toNat.choose (n.toNat / 2) < 2 ^ 64 →
      ∃ c, combinationsCount k n = some c ∧ c.toNat = n.toNat.choose k.toNat := by
  constructor
  · intro calls k hk hn
    obtain ⟨hc, ho⟩ := @Combinator.afterCalls_keeps _ origin calls
    have hp := Combinator.selections_perm k origin
    refine ⟨Combinator.selections k origin, ?_, ?_, ?_, ?_⟩
    · rw [Combinator.combine_eq hc hk (by rwa [ho]), ho]
    · rw [hp.length_eq, List.length_sublistsLen]
    · exact hp.nodup_iff.mpr (List.nodup_sublistsLen k hd)
    · intro l
      rw [hp.mem_iff, List.mem_sublistsLen]
  · intro k n hk ha
    exact combinationsCount_eq hk ha

theorem combinator_enumerates_pairs :
    ((Combinator.afterCalls [5, 7, 9] [3, 9]).combine 2).1 = some [[5, 7], [5, 9], [7, 9]] ∧
    combinationsCount 2 3 = some 3 ∧
    ∃ r, ((Combinator.afterCalls [5, 7, 9] [3, 9]).combine 2).1 = some r ∧ r.length = Nat.choose 3 2 :=
  ⟨by decide +kernel, by decide +kernel,
    have ⟨r, h, hr, _⟩ := (combinator_enumerates [5, 7, 9] (by decide)).1 [3, 9] 2 (by decide) (by decide)
    ⟨r, h, hr⟩⟩

end Gyro
