import Gyro.Zyre.LevelDb

/-!
# The iterators of a database

`lldb::cxx::db` has iterators after the standard ones. An iterator is two flags and a copy of
a record (`it_state`); where it stands is known only to the one cursor of the database.
-/

namespace Gyro.Zyre

open KeyValue

structure ItState where
  pair : Option Record
  isValid : Bool
  isEnd : Bool

namespace ItState

def cmp (it other : ItState) : Bool := it.isValid != other.isValid && it.isEnd != other.isEnd

def «end» : ItState := ⟨none, false, true⟩

variable (records : List Record) (d : Db)

def begin : Db × ItState :=
  let (d', r) := d.skip records 1 [] true
  (d', ⟨r, r.isSome, r.isNone⟩)

def next (n : Int) (it : ItState) : Db × ItState :=
  let (d', r) := d.skip records n [] false
  (d', ⟨r, r.isSome, it.isEnd || r.isNone⟩)

def prev (it : ItState) : Db × ItState :=
  let (d', r) := d.skip records (-1) [] it.isEnd
  (d', ⟨r, r.isSome, it.isEnd && r.isNone⟩)

/-- `prev(ref, n)`, which moves nothing unless it is at the end. -/
def prevBy (n : Int) (it : ItState) : Db × ItState :=
  if it.isEnd then
    let (d', r) := d.skip records (-n) [] true
    (d', ⟨r, r.isSome, r.isNone⟩)
  else (d, ⟨none, it.isValid, false⟩)

def rbegin : Db × ItState := prev records d «end»

def rend : Db × ItState := let (d', it) := begin records d; prev records d' it

def loop : Nat → Db × ItState → Option (List Record)
  | 0, _ => none
  | n + 1, (d, it) =>
    if it.cmp «end» then (loop n (next records d 1 it)).map (it.pair.toList ++ ·) else some []

/-- `for(it = rbegin(); it != rend(); ++it)`, from some turn on. -/
def loopBack : Nat → Db × ItState → Option (List Record)
  | 0, _ => none
  | n + 1, (d, it) =>
    let (d', last) := rend records d
    if it.cmp last then (loopBack n (prev records d' it)).map (it.pair.toList ++ ·) else some []

def place (i : Nat) : Db × ItState := (fun p => next records p.1 1 p.2)^[i] (begin records d)

end ItState

open ItState

/-- The iterators are those of an ordered map of the records with the prefix. -/
structure MapIterators (s : Store Blob) (d : Db) : Prop where
  forward : loop s.entries (s.entries.length + 1) (begin s.entries d) = some ((s.under d.pre).map d.strip)
  backward : loopBack s.entries (s.entries.length + 1) (rbegin s.entries d) = some ((s.under d.pre).map d.strip).reverse
  plus : ∀ i n, i + n < (s.under d.pre).length →
    (next s.entries (place s.entries d i).1 n (place s.entries d i).2).2.pair = ((s.under d.pre).map d.strip)[i + n]?
  minus : ∀ i n, n ≤ i → i < (s.under d.pre).length →
    (prevBy s.entries (place s.entries d i).1 n (place s.entries d i).2).2.pair = ((s.under d.pre).map d.strip)[i - n]?
  /-- Another iterator has been made in between. -/
  apart : ∀ i other, other ∈ [begin, rbegin, rend] → i + 1 < (s.under d.pre).length →
    (next s.entries (other s.entries (place s.entries d i).1).1 1 (place s.entries d i).2).2.pair =
      ((s.under d.pre).map d.strip)[i + 1]?

variable {s : Store Blob} {d : Db} {records : List Record}

theorem loop_eq_visit (n : Nat) (clear : Bool) (d : Db) :
    loop records n ((d.skip records 1 [] clear).1, ⟨(d.skip records 1 [] clear).2,
      (d.skip records 1 [] clear).2.isSome, (d.skip records 1 [] clear).2.isNone⟩) = d.visit records 1 n clear := by
  induction n generalizing d clear with
  | zero => rfl
  | succ n ih =>
    rw [Db.visit]
    rcases d.skip records 1 [] clear with ⟨d', _ | e⟩
    · rfl
    · exact congrArg (Option.map (e :: ·)) (ih false d')

theorem forward_loop (ho : d.handle.isSome) :
    loop s.entries (s.entries.length + 1) (begin s.entries d) = some ((s.under d.pre).map d.strip) :=
  (loop_eq_visit _ true d).trans (forward_scan s ho)

theorem loopBack_rbegin {n : Nat} {d' : Db} {last : ItState} (hr : rend records (rbegin records d).1 = (d', last))
    (hvalid : last.isValid = false) (hf : last.isEnd = false ∨ (rbegin records d).2.pair = none) :
    loopBack records (n + 1) (rbegin records d) = some [] := by
  have hc : (rbegin records d).2.cmp last = false := by
    unfold ItState.cmp
    rw [hvalid]
    rcases hf with hn | ho
    · rw [hn]
      simp only [rbegin, prev, «end»]
      cases (d.skip records (-1) [] true).2 <;> rfl
    · have hf : (rbegin records d).2.isValid = (rbegin records d).2.pair.isSome := rfl
      simp [hf, ho]
  simp [loopBack, hr, hc]

theorem rend_neither (ho : d.handle.isSome) (hs : s.under d.pre ≠ []) :
    (rend s.entries d).2.isValid = false ∧ (rend s.entries d).2.isEnd = false := by
  have hc := scan_self s d.pre
  have hn : d.handle.isNone = false := by simpa using ho
  cases hr : s.entries.dropWhile (·.1 < d.pre) with
  | nil => exact absurd (by simpa [hr] using hc.symm) hs
  | cons e after =>
    by_cases hp : d.pre <+: e.1
    · let p : Position := ⟨(s.entries.takeWhile (·.1 < d.pre)).reverse, e, after⟩
      have hpo : d.position s.entries 1 [] true = some p := by
        simp [Db.position, Db.start, Position.seek, hr, Position.ofRest, p]
      have hb : ({ d with iterator := some (some p) }.skip s.entries (-1) [] false).2 = none := by
        have hmo : { d with iterator := some (some p) }.position s.entries (-1) [] false = p.prev := rfl
        simp only [Db.skip, hn, hmo]
        cases hl : (s.entries.takeWhile (·.1 < d.pre)).reverse with
        | nil => simp [Position.prev, p, hl]
        | cons e' before =>
          have he' : e' ∈ s.entries.takeWhile (·.1 < d.pre) := List.mem_reverse.mp (by simp [hl])
          have ht := of_decide_eq_true (List.all_eq_true.mp List.all_takeWhile e' he')
          simp [Position.prev, p, hl, not_prefix_of_lt ht]
      have hbe : d.skip s.entries 1 [] true = ({ d with iterator := some (some p) }, some (d.strip e)) := by
        simp [Db.skip, hn, hpo, p, hp]
      simp [rend, begin, prev, hbe, hb]
    · exact absurd (by simpa [hr, hp] using hc.symm) hs

theorem item_mem_of_start {step : Int} (ht : step = 1 ∨ step = -1) {b : Key} {p : Position}
    (h : Db.start records step b = some p) : p.item ∈ records := by
  have hme : p.item ∈ stream step (Db.start records step b) := by simp [h, stream]
  rcases ht with rfl | rfl
  · have hs : Db.start records 1 b = Position.seek records b := rfl
    rw [hs, stream_seek] at hme
    exact (List.dropWhile_sublist _).mem hme
  · by_cases hb : b = []
    · subst hb
      have hs : Db.start records (-1) [] = Position.seekToLast records := rfl
      rw [hs, stream_seekToLast] at hme
      exact List.mem_reverse.mp hme
    · rw [stream_start_back hb] at hme
      exact (List.takeWhile_sublist _).mem (List.mem_reverse.mp hme)

theorem skip_none_of_under {step : Int} (hs : step = 1 ∨ step = -1) (hn : s.under d.pre = []) :
    (d.skip s.entries step [] true).2 = none := by
  have hp : d.position s.entries step [] true = Db.start s.entries step d.pre := by simp [Db.position]
  unfold Db.skip
  rw [hp]
  cases ha : Db.start s.entries step d.pre with
  | none => split <;> rfl
  | some p =>
    have ho := List.filter_eq_nil_iff.mp hn p.item (item_mem_of_start hs ha)
    simp only [decide_eq_true_eq] at ho
    simp [ho]
    split <;> rfl

/-- Going forwards is right, but not the rest, unless there is nothing to go through. -/
theorem map_iterators_iff (hopen : d.handle.isSome) :
    loop s.entries (s.entries.length + 1) (begin s.entries d) = some ((s.under d.pre).map d.strip) ∧
      (MapIterators s d ↔ s.under d.pre = []) := by
  refine ⟨forward_loop hopen, fun h => ?_, fun hn => ?_⟩
  · by_contra hs
    have hh : (rbegin s.entries d).1.handle = d.handle := skip_handle ..
    have hp : (rbegin s.entries d).1.pre = d.pre := skip_pre ..
    obtain ⟨hvalid, hen⟩ := rend_neither (s := s) (hh ▸ hopen) (hp ▸ hs)
    have hb := h.backward
    rw [loopBack_rbegin rfl hvalid (Or.inl hen)] at hb
    simp [hs] at hb
  · have hr : (rbegin s.entries d).2.pair = none := skip_none_of_under (Or.inr rfl) hn
    have hre (d' : Db) (hp : d'.pre = d.pre) : (rend s.entries d').2.isValid = false := by
      have hbe : (d'.skip s.entries 1 [] true).2 = none := skip_none_of_under (Or.inl rfl) (hp ▸ hn)
      have hp' : (d'.skip s.entries 1 [] true).1.pre = d.pre := (skip_pre ..).trans hp
      have hv := skip_none_of_under (Or.inr rfl) (hp' ▸ hn)
      simp [rend, begin, prev, hbe, hv]
    refine ⟨forward_loop hopen, ?_, by simp [hn], by simp [hn], by simp [hn]⟩
    rw [loopBack_rbegin rfl (hre _ (skip_pre ..)) (Or.inr hr), hn]
    rfl

theorem map_iterators_empty : MapIterators Store.empty ⟨[], [128], some [], none⟩ :=
  (map_iterators_iff rfl).2.mpr rfl

/-- The loop from `rbegin()` on ends before the only record. -/
theorem reverse_loop_skips : ¬ MapIterators ⟨[([128, 1], [7])], by decide⟩ ⟨[], [128], some [], none⟩ := by
  intro h
  exact absurd h.backward (by decide +kernel)

end Gyro.Zyre
