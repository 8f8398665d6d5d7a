import Mathlib.Data.List.Basic
import Mathlib.Data.List.GetD

/-!
# The first entry for each slot

A pass over a list writes the mark of an element into the cell of its slot if that is
still blank: a cell ends with the first mark of its slot that is not blank.
-/

namespace FirstBySlot

open List

variable {α β : Type} [DecidableEq β] (slot : α → Nat) (mark : α → β) (blank : β)

def put (cells : List β) (a : α) : List β :=
  if cells.getD (slot a) blank = blank then cells.set (slot a) (mark a) else cells

def fill (n : Nat) (l : List α) : List β := l.foldl (put slot mark blank) (List.replicate n blank)

def chosen (l : List α) (i : Nat) : Option α := l.find? fun a => slot a = i ∧ mark a ≠ blank

def chosenFrom (l : List α) (first n : Nat) : List α := (List.range' first n).filterMap (chosen slot mark blank l)

variable {slot mark blank} {a : α} {l : List α} {cells : List β} {i n first : Nat}

theorem chosen_eq_some (h : chosen slot mark blank l i = some a) : a ∈ l ∧ slot a = i ∧ mark a ≠ blank := by
  refine ⟨List.mem_of_find?_eq_some h, ?_⟩
  simpa using List.find?_some h

theorem mem_chosenFrom (h : a ∈ chosenFrom slot mark blank l first n) : a ∈ l := by
  obtain ⟨i, -, hi⟩ := mem_filterMap.mp h
  exact (chosen_eq_some hi).1

@[simp] theorem length_put : (put slot mark blank cells a).length = cells.length := by
  unfold put
  split
  · exact length_set
  · rfl

theorem length_foldl_put : (l.foldl (put slot mark blank) cells).length = cells.length := by
  induction l generalizing cells with
  | nil => rfl
  | cons a l ih => rw [foldl_cons, ih, length_put]

@[simp] theorem length_fill : (fill slot mark blank n l).length = n := by
  rw [fill, length_foldl_put, length_replicate]

theorem getD_put (hi : i < cells.length) : (put slot mark blank cells a).getD i blank =
    if cells.getD i blank = blank ∧ slot a = i then mark a else cells.getD i blank := by
  by_cases hs : slot a = i
  · subst hs
    by_cases hb : cells.getD (slot a) blank = blank
    · rw [put, if_pos hb, if_pos ⟨hb, rfl⟩]
      simp [List.getD, List.getElem?_set_self hi]
    · rw [put, if_neg hb, if_neg fun h => hb h.1]
  · rw [if_neg fun h => hs h.2, put]
    split
    · simp [List.getD, List.getElem?_set_ne hs]
    · rfl

theorem getD_foldl_put (hi : i < cells.length) : (l.foldl (put slot mark blank) cells).getD i blank =
    if cells.getD i blank = blank then ((chosen slot mark blank l i).map mark).getD blank else cells.getD i blank := by
  induction l generalizing cells with
  | nil => simp [chosen]
  | cons a l ih =>
    rw [foldl_cons, ih (by rwa [length_put]), getD_put hi]
    generalize cells.getD i blank = c
    by_cases hb : c = blank
    · by_cases hs : slot a = i
      · by_cases ha : mark a = blank <;> simp [hb, hs, ha, chosen]
      · simp [hb, hs, chosen]
    · simp [hb]

theorem getElem?_fill (hi : i < n) :
    (fill slot mark blank n l)[i]? = some (((chosen slot mark blank l i).map mark).getD blank) := by
  have hlen : i < (fill slot mark blank n l).length := by rwa [length_fill]
  have hr : (List.replicate n blank).getD i blank = blank := by
    rw [getD_eq_getElem _ _ (by simpa using hi), getElem_replicate]
  rw [List.getElem?_eq_getElem hlen, ← getD_eq_getElem _ blank hlen, fill,
    getD_foldl_put (by simpa using hi), if_pos hr]

theorem fill_eq_map :
    fill slot mark blank n l = (List.range n).map fun i => ((chosen slot mark blank l i).map mark).getD blank := by
  refine List.ext_getElem? fun i => ?_
  by_cases hi : i < n
  · rw [getElem?_fill hi]
    simp [hi]
  · simp [hi]

theorem drop_fill : (fill slot mark blank n l).drop first =
    (List.range' first (n - first)).map fun i => ((chosen slot mark blank l i).map mark).getD blank := by
  rw [fill_eq_map, ← map_drop, range_eq_range']
  simp

theorem filter_map_chosen (slots : List Nat) :
    (slots.map fun i => ((chosen slot mark blank l i).map mark).getD blank).filter (· ≠ blank) =
      (slots.filterMap (chosen slot mark blank l)).map mark := by
  induction slots with
  | nil => rfl
  | cons i slots ih =>
    cases hc : chosen slot mark blank l i with
    | none => simp [hc, ← ih]
    | some a =>
      have ha := (chosen_eq_some hc).2.2
      simp [hc, ha, ← ih]

theorem filter_drop_fill : ((fill slot mark blank n l).drop first).filter (· ≠ blank) =
    (chosenFrom slot mark blank l first (n - first)).map mark := by
  rw [drop_fill, filter_map_chosen, chosenFrom]

theorem map_slot_sublist (slots : List Nat) :
    ((slots.filterMap (chosen slot mark blank l)).map slot).Sublist slots := by
  induction slots with
  | nil => exact List.Sublist.refl _
  | cons i slots ih =>
    cases hc : chosen slot mark blank l i with
    | none =>
      rw [filterMap_cons_none hc]
      exact ih.cons i
    | some a =>
      rw [filterMap_cons_some hc, map_cons, (chosen_eq_some hc).2.1]
      exact ih.cons_cons i

theorem map_slot_chosenFrom (h : ((fill slot mark blank n l).drop first).filter (· ≠ blank) =
    (fill slot mark blank n l).drop first) :
    (chosenFrom slot mark blank l first (n - first)).map slot = List.range' first (n - first) := by
  refine (map_slot_sublist _).eq_of_length ?_
  have hl := congrArg List.length h
  rw [filter_drop_fill, length_map, drop_fill, length_map] at hl
  rw [length_map]
  exact hl

end FirstBySlot
