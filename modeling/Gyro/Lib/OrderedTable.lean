import Mathlib.Data.List.Basic

/-!
# Tables in key order

Rows in the order of their integer keys. A row is appended only after the last one, so
deleting the key just appended gives the table back.
-/

namespace OrderedTable

@[ext]
structure Table (V : Type) where
  rows : List (Nat × V)
  sorted : rows.Pairwise fun r s => r.1 < s.1

namespace Table

variable {V : Type}

def empty : Table V := { rows := [], sorted := List.Pairwise.nil }

def count (t : Table V) : Nat := t.rows.length

def get? (t : Table V) (k : Nat) : Option V := (t.rows.find? (·.1 = k)).map (·.2)

theorem lt_of_last {t : Table V} {k : Nat} (h : ∀ r ∈ t.rows.getLast?, r.1 < k) : ∀ r ∈ t.rows, r.1 < k := by
  intro r hr
  cases hl : t.rows.getLast? with
  | none => simp_all
  | some last =>
    have ho := t.sorted
    have hp : t.rows.dropLast ++ [last] = t.rows := List.dropLast_append_getLast? last hl
    rw [← hp] at hr ho
    have hbound := h last hl
    obtain hr | hr := List.mem_append.mp hr
    · have := (List.pairwise_append.mp ho).2.2 r hr last List.mem_cons_self
      omega
    · rwa [List.mem_singleton.mp hr]

/-- A row after the last one; `none` when its key is not above all others. -/
def append (t : Table V) (k : Nat) (v : V) : Option (Table V) :=
  if h : ∀ r ∈ t.rows.getLast?, r.1 < k then
    some
      { rows := t.rows ++ [(k, v)]
        sorted := List.pairwise_append.mpr ⟨t.sorted, List.pairwise_singleton _ _, fun r hr s hs => by
          rw [List.mem_singleton.mp hs]
          exact lt_of_last h r hr⟩ }
  else none

def del (t : Table V) (k : Nat) : Table V :=
  { rows := t.rows.filter (·.1 ≠ k), sorted := t.sorted.filter _ }

variable {t t' : Table V} {k k' : Nat} {v : V}

section
variable (h : t.append k v = some t')
include h

theorem append_eq_some : t'.rows = t.rows ++ [(k, v)] ∧ ∀ r ∈ t.rows, r.1 < k := by
  unfold append at h
  split at h
  next hl =>
    cases h
    exact ⟨rfl, lt_of_last hl⟩
  next => cases h

theorem get?_append : t'.get? k = some v := by
  obtain ⟨ho, hl⟩ := append_eq_some h
  have hn : t.rows.find? (·.1 = k) = none := by
    apply List.find?_eq_none.mpr
    intro r hr
    have := hl r hr
    simp
    omega
  simp [get?, ho, List.find?_append, hn]

theorem get?_eq_none_of_append : t.get? k = none := by
  obtain ⟨_, hl⟩ := append_eq_some h
  rw [get?, Option.map_eq_none_iff]
  apply List.find?_eq_none.mpr
  intro r hr
  have := hl r hr
  simp
  omega

theorem get?_append_of_ne (hn : k' ≠ k) : t'.get? k' = t.get? k' := by
  obtain ⟨ho, _⟩ := append_eq_some h
  simp [get?, ho, List.find?_append, Ne.symm hn]

end

theorem get?_del_of_ne (hn : k' ≠ k) : (t.del k).get? k' = t.get? k' := by
  unfold get? del
  rw [List.find?_filter]
  congr 2
  funext r
  by_cases hr : r.1 = k' <;> simp [hr, hn]

theorem del_append (h : t.append k v = some t') : t'.del k = t := by
  obtain ⟨ho, hl⟩ := append_eq_some h
  have hk : t.rows.filter (·.1 ≠ k) = t.rows := by
    apply List.filter_eq_self.mpr
    intro r hr
    have := hl r hr
    simp
    omega
  simp only [del, ho, List.filter_append, hk]
  simp

theorem count_append (h : t.append k v = some t') : t'.count = t.count + 1 := by
  simp [count, (append_eq_some h).1]

end Table

end OrderedTable
