import Gyro.Lib.Keyed
import Mathlib.Data.List.Sort

/-!
# A bounded table that drops its oldest records

Records with distinct keys in the order of their times; a new record goes
behind those of the same time. When there are too many, the first one goes.
-/

namespace AgedTable

open Keyed List

variable {α κ : Type} (key : α → κ) (time : α → Int)

def insert (x : α) (xs : List α) : List α := xs.orderedInsert (fun x y => time x < time y) x

def trim (limit : Nat) : List α → List α
  | [] => []
  | x :: xs => if limit < (x :: xs).length then trim limit xs else x :: xs

def replace [DecidableEq κ] (x : α) (xs : List α) : List α := xs.map fun y => if key y = key x then x else y

/-- `merge old new` has the key of the new record and the time of the old one. -/
structure Merges (merge : α → α → α) : Prop where
  key : ∀ old new, key (merge old new) = key new
  time : ∀ old new, time (merge old new) = time old

/-- Merges a record into the one with its key, or adds it and drops what is too much. -/
def upsert [DecidableEq κ] (merge : α → α → α) (limit : Nat) (x : α) (xs : List α) : List α :=
  match find key xs (key x) with
  | none => trim limit (insert time x xs)
  | some y => replace key (merge y x) xs

/-- A full table of records no older than `t`. -/
structure Floor (limit : Nat) (t : Int) (xs : List α) : Prop where
  full : xs.length = limit
  least : ∀ x ∈ xs, t ≤ time x

structure Aged (limit : Nat) (xs : List α) : Prop where
  keys : (xs.map key).Nodup
  sorted : xs.Pairwise fun x y => time x ≤ time y
  bounded : xs.length ≤ limit

variable {key time} {limit : Nat} {x y z : α} {xs : List α}

theorem aged_nil : Aged key time limit [] := ⟨nodup_nil, List.Pairwise.nil, Nat.zero_le _⟩

theorem perm_insert (x : α) (xs : List α) : (insert time x xs).Perm (x :: xs) := perm_orderedInsert _ x xs

@[simp] theorem insert_nil : insert time x [] = [x] := rfl

theorem insert_behind {ys : List α} (h : time y ≤ time x) :
    insert time x (y :: ys) = y :: insert time x ys := if_neg (Int.not_lt.mpr h)

theorem insert_before {ys : List α} (h : time x < time y) : insert time x (y :: ys) = x :: y :: ys := if_pos h

theorem mem_insert : y ∈ insert time x xs ↔ y = x ∨ y ∈ xs := by
  rw [(perm_insert x xs).mem_iff, mem_cons]

theorem sorted_insert (h : xs.Pairwise fun x y => time x ≤ time y) :
    (insert time x xs).Pairwise fun x y => time x ≤ time y := by
  induction xs with
  | nil => exact pairwise_singleton _ _
  | cons y ys ih =>
    obtain ⟨hy, hs⟩ := pairwise_cons.mp h
    rcases Int.lt_or_le (time x) (time y) with hl | hle
    · rw [insert_before hl]
      apply pairwise_cons.mpr
      refine ⟨?_, h⟩
      intro z hz
      rcases mem_cons.mp hz with rfl | hz
      · exact Int.le_of_lt hl
      · exact (Int.le_of_lt hl).trans (hy z hz)
    · rw [insert_behind hle]
      apply pairwise_cons.mpr
      refine ⟨?_, ih hs⟩
      intro z hz
      rcases mem_insert.mp hz with rfl | hz
      · exact hle
      · exact hy z hz

theorem trim_suffix (limit : Nat) (xs : List α) : trim limit xs <:+ xs := by
  induction xs with
  | nil => exact suffix_refl _
  | cons x xs ih =>
    unfold trim
    split
    · exact ih.trans (suffix_cons x xs)
    · exact suffix_refl _

theorem length_trim_le (limit : Nat) (xs : List α) : (trim limit xs).length ≤ limit := by
  induction xs with
  | nil => exact Nat.zero_le _
  | cons x xs ih =>
    unfold trim
    split
    · exact ih
    · next hle => exact Nat.le_of_not_lt hle

theorem length_trim_of_le (h : limit ≤ xs.length) : (trim limit xs).length = limit := by
  induction xs with
  | nil => exact Nat.le_antisymm (Nat.zero_le _) h
  | cons x xs ih =>
    unfold trim
    split
    · next hl => exact ih (Nat.le_of_lt_succ hl)
    · next hle => exact Nat.le_antisymm (Nat.le_of_not_lt hle) h

theorem trim_of_length_le (h : xs.length ≤ limit) : trim limit xs = xs := by
  cases xs with
  | nil => rfl
  | cons x xs => exact if_neg (Nat.not_lt.mpr h)

theorem le_of_trimmed (h : xs.Pairwise fun x y => time x ≤ time y) (hy : y ∈ xs) (hg : y ∉ trim limit xs)
    (hz : z ∈ trim limit xs) : time y ≤ time z := by
  obtain ⟨gone, hs⟩ := trim_suffix limit xs
  rw [← hs] at h hy
  have hy' : y ∈ gone := (mem_append.mp hy).resolve_right hg
  exact (pairwise_append.mp h).2.2 y hy' z hz

theorem Aged.trim (hk : (xs.map key).Nodup) (hs : xs.Pairwise fun x y => time x ≤ time y) :
    Aged key time limit (trim limit xs) where
  keys := hk.sublist ((trim_suffix limit xs).sublist.map key)
  sorted := hs.sublist (trim_suffix limit xs).sublist
  bounded := length_trim_le limit xs

theorem Aged.insert (h : Aged key time limit xs) (hn : key x ∉ xs.map key) :
    Aged key time limit (AgedTable.trim limit (insert time x xs)) := by
  apply Aged.trim
  · rw [((perm_insert x xs).map key).nodup_iff]
    exact nodup_cons.mpr ⟨hn, h.keys⟩
  · exact sorted_insert h.sorted

theorem Aged.mem_insert_iff (h : Aged key time limit xs) (hn : x ∉ xs) :
    x ∈ AgedTable.trim limit (AgedTable.insert time x xs) ↔ xs.length < limit ∨ ∃ y ∈ xs, time y ≤ time x := by
  have hln : (AgedTable.insert time x xs).length = xs.length + 1 := (perm_insert x xs).length_eq
  rcases Nat.lt_or_ge xs.length limit with hr | hf
  · rw [trim_of_length_le (by rw [hln]; exact hr)]
    simp [mem_insert, hr]
  · have heq : xs.length = limit := Nat.le_antisymm h.bounded hf
    simp only [Nat.not_lt.mpr hf, false_or]
    cases xs with
    | nil =>
      rw [← heq]
      simp [AgedTable.trim]
    | cons y ys =>
      have hlen : (y :: ys).length = limit := heq
      rcases Int.lt_or_le (time x) (time y) with hl | hle
      · rw [insert_before hl, AgedTable.trim, if_pos (by rw [← hlen]; exact Nat.lt_succ_self _),
          trim_of_length_le (Nat.le_of_eq hlen)]
        constructor
        · intro hx
          exact absurd hx hn
        · rintro ⟨z, hz, hzx⟩
          have hy : time y ≤ time z := by
            rcases mem_cons.mp hz with rfl | hz
            · exact Int.le_refl _
            · exact (pairwise_cons.mp h.sorted).1 z hz
          exact absurd (hy.trans hzx) (Int.not_le.mpr hl)
      · have hlen' : (AgedTable.insert time x ys).length = ys.length + 1 := (perm_insert x ys).length_eq
        rw [insert_behind hle, AgedTable.trim,
          if_pos (by rw [length_cons, hlen', ← hlen]; exact Nat.lt_succ_self _),
          trim_of_length_le (by rw [hlen', ← hlen]; exact Nat.le_refl _)]
        simp [mem_insert, hle]

theorem Aged.floor_of_dropped (h : Aged key time limit xs) (hy : y ∈ AgedTable.insert time x xs)
    (hg : y ∉ AgedTable.trim limit (AgedTable.insert time x xs)) :
    Floor time limit (time y) (AgedTable.trim limit (AgedTable.insert time x xs)) where
  full := by
    apply length_trim_of_le
    by_contra hr
    apply hg
    rw [trim_of_length_le (Nat.le_of_not_le hr)]
    exact hy
  least := fun z hz => le_of_trimmed (sorted_insert h.sorted) hy hg hz

theorem Floor.insert {t : Int} (hf : Floor time limit t xs) (h : Aged key time limit xs) (hn : x ∉ xs) :
    Floor time limit t (AgedTable.trim limit (AgedTable.insert time x xs)) where
  full := by
    apply length_trim_of_le
    rw [(perm_insert x xs).length_eq, ← hf.full]
    exact Nat.le_succ _
  least := by
    intro z hz
    rcases mem_insert.mp ((trim_suffix _ _).subset hz) with rfl | hold
    · -- the new record stays only beside an older one
      rcases (h.mem_insert_iff hn).mp hz with hr | ⟨y, hy, hle⟩
      · exact absurd hf.full (Nat.ne_of_lt hr)
      · exact (hf.least y hy).trans hle
    · exact hf.least z hold

variable [DecidableEq κ]

theorem map_replace {γ : Type} (f : α → γ) (hk : (xs.map key).Nodup) (hi : find key xs (key x) = some y)
    (hf : f x = f y) : (replace key x xs).map f = xs.map f := by
  unfold replace
  rw [map_map]
  apply map_congr_left
  intro z hz
  dsimp only [Function.comp]
  split
  · next hke =>
    have hy : z = y := Option.some.inj (((find_eq_some_iff hk).mpr ⟨hz, hke⟩).symm.trans hi)
    rw [hy, hf]
  · rfl

theorem mem_replace (hf : find key xs (key x) = some y) : z ∈ replace key x xs ↔ z = x ∨ z ∈ xs ∧ key z ≠ key x := by
  unfold replace
  rw [mem_map]
  constructor
  · rintro ⟨w, hw, rfl⟩
    split
    · exact Or.inl rfl
    · next hn => exact Or.inr ⟨hw, hn⟩
  · rintro (rfl | ⟨hz, hn⟩)
    · obtain ⟨hy, hk⟩ := find_some_mem hf
      exact ⟨y, hy, if_pos hk⟩
    · exact ⟨z, hz, if_neg hn⟩

theorem Aged.replace (h : Aged key time limit xs) (hf : find key xs (key x) = some y) (ht : time x = time y) :
    Aged key time limit (replace key x xs) where
  keys := by
    rw [map_replace key h.keys hf (find_some_mem hf).2.symm]
    exact h.keys
  sorted := by
    have htm := map_replace time h.keys hf ht
    have hs : (xs.map time).Pairwise (· ≤ ·) := pairwise_map.mpr h.sorted
    rw [← htm] at hs
    exact pairwise_map.mp hs
  bounded := by
    unfold AgedTable.replace
    rw [length_map]
    exact h.bounded

theorem Aged.without (h : Aged key time limit xs) (k : κ) : Aged key time limit (without key xs k) where
  keys := nodup_without h.keys
  sorted := h.sorted.filter _
  bounded := Nat.le_trans (length_filter_le _ _) h.bounded

variable {merge : α → α → α} (hmerge : Merges key time merge)

theorem upsert_new (hf : find key xs (key x) = none) :
    upsert key time merge limit x xs = trim limit (insert time x xs) := by
  unfold upsert
  rw [hf]

theorem upsert_old (hf : find key xs (key x) = some y) :
    upsert key time merge limit x xs = replace key (merge y x) xs := by
  unfold upsert
  rw [hf]

include hmerge

theorem Merges.find (hf : Keyed.find key xs (key x) = some y) : Keyed.find key xs (key (merge y x)) = some y := by
  rw [hmerge.key]
  exact hf

theorem Aged.upsert (h : Aged key time limit xs) : Aged key time limit (upsert key time merge limit x xs) := by
  cases hf : Keyed.find key xs (key x) with
  | none =>
    rw [upsert_new hf]
    exact h.insert (find_eq_none_iff.mp hf)
  | some y =>
    rw [upsert_old hf]
    exact h.replace (hmerge.find hf) (hmerge.time y x)

theorem mem_upsert (hz : z ∈ upsert key time merge limit x xs) :
    (z = x ∧ Keyed.find key xs (key x) = none) ∨ (∃ y, Keyed.find key xs (key x) = some y ∧ z = merge y x) ∨
      (z ∈ xs ∧ key z ≠ key x) := by
  cases hf : Keyed.find key xs (key x) with
  | none =>
    rw [upsert_new hf] at hz
    rcases mem_insert.mp ((trim_suffix _ _).subset hz) with rfl | hold
    · exact Or.inl ⟨rfl, rfl⟩
    · refine Or.inr (Or.inr ⟨hold, ?_⟩)
      intro heq
      exact find_eq_none_iff.mp hf (heq ▸ mem_map_of_mem hold)
  | some y =>
    rw [upsert_old hf, mem_replace (hmerge.find hf), hmerge.key] at hz
    rcases hz with rfl | hold
    · exact Or.inr (Or.inl ⟨y, rfl, rfl⟩)
    · exact Or.inr (Or.inr hold)

theorem Aged.kept_or_floor (h : Aged key time limit xs) (hy : y = x ∨ y ∈ xs) :
    (∃ z ∈ AgedTable.upsert key time merge limit x xs, key z = key y ∧ (y ∈ xs → time z = time y)) ∨
      Floor time limit (time y) (AgedTable.upsert key time merge limit x xs) := by
  cases hf : Keyed.find key xs (key x) with
  | none =>
    rw [upsert_new hf]
    by_cases hs : y ∈ AgedTable.trim limit (AgedTable.insert time x xs)
    · exact Or.inl ⟨y, hs, rfl, fun _ => rfl⟩
    · exact Or.inr (h.floor_of_dropped (mem_insert.mpr hy) hs)
  | some old =>
    rw [upsert_old hf]
    apply Or.inl
    by_cases hk : key y = key x
    · refine ⟨merge old x, (mem_replace (hmerge.find hf)).mpr (Or.inl rfl), ?_, ?_⟩
      · rw [hmerge.key, hk]
      · intro hme
        rw [hmerge.time, Option.some.inj (hf.symm.trans ((find_eq_some_iff h.keys).mpr ⟨hme, hk⟩))]
    · have hme : y ∈ xs := by
        rcases hy with rfl | hme
        · exact absurd rfl hk
        · exact hme
      refine ⟨y, (mem_replace (hmerge.find hf)).mpr (Or.inr ⟨hme, ?_⟩), rfl, fun _ => rfl⟩
      rw [hmerge.key]
      exact hk

theorem Floor.upsert {t : Int} (hl : Floor time limit t xs) (h : Aged key time limit xs) :
    Floor time limit t (AgedTable.upsert key time merge limit x xs) := by
  cases hf : Keyed.find key xs (key x) with
  | none =>
    rw [upsert_new hf]
    apply hl.insert h
    intro hx
    exact find_eq_none_iff.mp hf (mem_map_of_mem hx)
  | some y =>
    rw [upsert_old hf]
    refine ⟨by unfold AgedTable.replace; rw [length_map]; exact hl.full, ?_⟩
    intro z hz
    rcases (mem_replace (hmerge.find hf)).mp hz with rfl | ⟨hold, -⟩
    · rw [hmerge.time]
      exact hl.least y (find_some_mem hf).1
    · exact hl.least z hold

end AgedTable
