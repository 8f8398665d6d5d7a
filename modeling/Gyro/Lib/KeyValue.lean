import Mathlib.Data.List.Lex
import Mathlib.Data.List.Sort

/-!
# A store in byte order

One entry for each key, in the bytewise order of the keys. Keys with a common prefix lie
next to each other, so a cursor meets them all before any other.
-/

namespace KeyValue

open List

instance linearOrderByte : LinearOrder UInt8 where
  le_refl := UInt8.le_refl
  le_trans _ _ _ := UInt8.le_trans
  lt_iff_le_not_ge a b := by
    simp only [UInt8.lt_iff_toNat_lt, UInt8.le_iff_toNat_le]
    omega
  le_antisymm _ _ := UInt8.le_antisymm
  le_total := UInt8.le_total
  toDecidableLE := inferInstance
  toDecidableLT := inferInstance
  toDecidableEq := inferInstance

abbrev Key := List UInt8

@[ext]
structure Store (V : Type) where
  entries : List (Key × V)
  sorted : entries.Pairwise fun a b => a.1 < b.1

namespace Store

variable {V : Type} (s : Store V)

def empty : Store V := { entries := [], sorted := List.Pairwise.nil }

def get? (k : Key) : Option V := (s.entries.find? (·.1 = k)).map (·.2)

def put (k : Key) (v : V) : Store V where
  entries := s.entries.filter (·.1 < k) ++ (k, v) :: s.entries.filter (k < ·.1)
  sorted := by
    apply List.pairwise_append.mpr
    refine ⟨s.sorted.filter _, List.pairwise_cons.mpr ⟨fun e he => ?_, s.sorted.filter _⟩, fun e he e' he' => ?_⟩
    · exact of_decide_eq_true (List.mem_filter.mp he).2
    · have hlt : e.1 < k := of_decide_eq_true (List.mem_filter.mp he).2
      rcases List.mem_cons.mp he' with rfl | he'
      · exact hlt
      · exact hlt.trans (of_decide_eq_true (List.mem_filter.mp he').2)

def under (pre : Key) : List (Key × V) := s.entries.filter (pre <+: ·.1)

/-- What a cursor set to `k` runs over before it leaves the prefix. -/
def scan (pre k : Key) : List (Key × V) := (s.entries.dropWhile (·.1 < k)).takeWhile (pre <+: ·.1)

variable {s} {pre k k' : Key} {v : V}

theorem mem_put {e : Key × V} : e ∈ (s.put k v).entries ↔ e = (k, v) ∨ e ∈ s.entries ∧ e.1 ≠ k := by
  simp only [put, mem_append, mem_cons, mem_filter, decide_eq_true_eq, ne_eq]
  constructor
  · rintro (⟨he, hlt⟩ | rfl | ⟨he, hlt⟩)
    exacts [Or.inr ⟨he, hlt.ne⟩, Or.inl rfl, Or.inr ⟨he, hlt.ne'⟩]
  · rintro (rfl | ⟨he, hn⟩)
    · exact Or.inr (Or.inl rfl)
    · rcases lt_or_gt_of_ne hn with hlt | hlt
      exacts [Or.inl ⟨he, hlt⟩, Or.inr (Or.inr ⟨he, hlt⟩)]

theorem nodup_keys : (s.entries.map (·.1)).Nodup :=
  pairwise_map.mpr (s.sorted.imp fun h => h.ne)

theorem eq_of_key_eq {e e' : Key × V} (he : e ∈ s.entries) (he' : e' ∈ s.entries) (hk : e.1 = e'.1) : e = e' :=
  inj_on_of_nodup_map nodup_keys he he' hk

theorem eq_of_mem_iff {l l' : List (Key × V)} (hl : l.Pairwise fun a b => a.1 < b.1)
    (hl' : l'.Pairwise fun a b => a.1 < b.1) (h : ∀ e, e ∈ l ↔ e ∈ l') : l = l' := by
  exact List.Pairwise.eq_of_mem_iff hl hl' h

theorem get?_eq_some_iff : s.get? k = some v ↔ (k, v) ∈ s.entries := by
  constructor
  · intro h
    obtain ⟨e, hf, rfl⟩ := Option.map_eq_some_iff.mp h
    have hk : e.1 = k := by simpa using List.find?_some hf
    subst hk
    exact List.mem_of_find?_eq_some hf
  · intro h
    cases hf : s.entries.find? (·.1 = k) with
    | none => simpa using List.find?_eq_none.mp hf _ h
    | some e =>
      have hk : e.1 = k := by simpa using List.find?_some hf
      have he := eq_of_key_eq (List.mem_of_find?_eq_some hf) h hk
      simp [get?, hf, he]

@[simp] theorem get?_put_self : (s.put k v).get? k = some v := get?_eq_some_iff.mpr (mem_put.mpr (Or.inl rfl))

theorem get?_put_of_ne (hn : k' ≠ k) : (s.put k v).get? k' = s.get? k' := by
  apply Option.ext
  intro v'
  simp [get?_eq_some_iff, mem_put, hn]

theorem under_put_of_not (h : ¬ pre <+: k) : (s.put k v).under pre = s.under pre := by
  apply eq_of_mem_iff ((s.put k v).sorted.filter _) (s.sorted.filter _)
  intro e
  simp only [mem_filter, mem_put, decide_eq_true_eq]
  constructor
  · rintro ⟨rfl | ⟨he, -⟩, hp⟩
    exacts [absurd hp h, ⟨he, hp⟩]
  · rintro ⟨he, hp⟩
    exact ⟨Or.inr ⟨he, fun hk => h (hk ▸ hp)⟩, hp⟩

theorem under_put_last (hp : pre <+: k) (hl : ∀ e ∈ s.under pre, e.1 < k) :
    (s.put k v).under pre = s.under pre ++ [(k, v)] := by
  have hs : (s.under pre ++ [(k, v)]).Pairwise fun a b => a.1 < b.1 := by
    apply pairwise_append.mpr
    exact ⟨s.sorted.filter _, pairwise_singleton _ _, by simpa using hl⟩
  apply eq_of_mem_iff ((s.put k v).sorted.filter _) hs
  intro e
  simp only [under, mem_append, mem_filter, mem_put, decide_eq_true_eq, mem_singleton] at hl ⊢
  constructor
  · rintro ⟨rfl | ⟨he, -⟩, hp'⟩
    exacts [Or.inr rfl, Or.inl ⟨he, hp'⟩]
  · rintro (⟨he, hp'⟩ | rfl)
    · exact ⟨Or.inr ⟨he, (hl e ⟨he, hp'⟩).ne⟩, hp'⟩
    · exact ⟨Or.inl rfl, hp⟩

theorem cons_lt_cons {x y : UInt8} {a b : Key} : x :: a < y :: b ↔ x < y ∨ x = y ∧ a < b :=
  cons_lt_cons_iff

theorem append_lt_append {p a b : Key} : p ++ a < p ++ b ↔ a < b := by
  induction p with
  | nil => rfl
  | cons x p ih => simpa [cons_lt_cons] using ih

theorem le_append (a b : Key) : a ≤ a ++ b := by
  rw [← not_lt]
  intro hlt
  have hn : b < [] := append_lt_append (p := a) |>.mp (by simpa using hlt)
  exact not_lt_nil b hn

theorem not_cons_le_nil {x : UInt8} {a : Key} : ¬ x :: a ≤ [] :=
  not_le.mpr (nil_lt_cons x a)

theorem prefix_of_between {a b c : Key} (ha : pre <+: a) (hc : pre <+: c) (hb : a ≤ b) (hbc : b ≤ c) : pre <+: b := by
  induction pre generalizing a b c with
  | nil => exact nil_prefix
  | cons x pre ih =>
    obtain ⟨a', rfl⟩ := ha
    obtain ⟨c', rfl⟩ := hc
    cases b with
    | nil => exact absurd hb not_cons_le_nil
    | cons y b =>
      have hx : x = y := by
        apply le_antisymm
        · exact not_lt.mp fun hlt => hb.not_gt (cons_lt_cons.mpr (Or.inl hlt))
        · exact not_lt.mp fun hlt => hbc.not_gt (cons_lt_cons.mpr (Or.inl hlt))
      subst hx
      have ha' : pre ++ a' ≤ b := not_lt.mp fun hlt => hb.not_gt (cons_lt_cons.mpr (Or.inr ⟨rfl, hlt⟩))
      have hb' : b ≤ pre ++ c' := not_lt.mp fun hlt => hbc.not_gt (cons_lt_cons.mpr (Or.inr ⟨rfl, hlt⟩))
      exact cons_prefix_cons.mpr ⟨rfl, ih ⟨a', rfl⟩ ⟨c', rfl⟩ ha' hb'⟩

variable {l : List (Key × V)}

section
variable (hl : l.Pairwise fun a b => a.1 < b.1)
include hl

theorem dropWhile_eq_filter : l.dropWhile (·.1 < k) = l.filter (k ≤ ·.1) := by
  induction l with
  | nil => rfl
  | cons e l ih =>
    obtain ⟨hh, ht⟩ := pairwise_cons.mp hl
    by_cases hlt : e.1 < k
    · simp [hlt, not_le.mpr hlt, ih ht]
    · have hle := not_lt.mp hlt
      have ha : ∀ e' ∈ l, decide (k ≤ e'.1) = true := fun e' he' => decide_eq_true (hle.trans (hh e' he').le)
      simp [hlt, hle, filter_eq_self.mpr ha]

theorem takeWhile_lt_eq_filter : l.takeWhile (·.1 < k) = l.filter (·.1 < k) := by
  induction l with
  | nil => rfl
  | cons e l ih =>
    obtain ⟨hh, ht⟩ := pairwise_cons.mp hl
    by_cases hlt : e.1 < k
    · simp [hlt, ih ht]
    · have ha : ∀ e' ∈ l, ¬ decide (e'.1 < k) = true := fun e' he' h =>
        hlt ((hh e' he').trans (of_decide_eq_true h))
      simp [hlt, filter_eq_nil_iff.mpr ha]

theorem takeWhile_eq_filter (hp : pre <+: k)
    (hf : ∀ e ∈ l, k ≤ e.1) : l.takeWhile (pre <+: ·.1) = l.filter (pre <+: ·.1) := by
  induction l with
  | nil => rfl
  | cons e l ih =>
    obtain ⟨hh, ht⟩ := pairwise_cons.mp hl
    by_cases he : pre <+: e.1
    · simp [he, ih ht fun e' he' => hf e' (mem_cons_of_mem _ he')]
    · have hn : ∀ e' ∈ l, ¬ decide (pre <+: e'.1) = true := by
        intro e' he' hp'
        exact he (prefix_of_between hp (of_decide_eq_true hp') (hf e (by simp)) (hh e' he').le)
      simp [he, filter_eq_nil_iff.mpr hn]

end

/-- A cursor set to a key with the prefix meets all later keys with it. -/
theorem scan_eq (hp : pre <+: k) : s.scan pre k = (s.under pre).filter (k ≤ ·.1) := by
  have hf : ∀ e ∈ s.entries.filter (k ≤ ·.1), k ≤ e.1 := fun e he => of_decide_eq_true (mem_filter.mp he).2
  rw [scan, dropWhile_eq_filter s.sorted, takeWhile_eq_filter (s.sorted.filter _) hp hf, under,
    filter_filter, filter_filter]
  simp only [Bool.and_comm]

end Store

end KeyValue
