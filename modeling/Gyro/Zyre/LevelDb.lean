import Gyro.Lib.KeyValue
import Gyro.Types
import Mathlib.Data.List.Induction

/-!
# Scans over a LevelDB

`lldb::db` (`zyre/db.cpp`) puts a prefix in front of every key. A scan is made with one
cursor: forwards from the prefix, backwards from the prefix with one added to it.
-/

namespace Gyro.Zyre

open KeyValue List

abbrev Record := Key × Blob

/-- A valid `leveldb::Iterator`: the records before it, nearest first, its own, and those after it. -/
structure Position where
  before : List Record
  item : Record
  after : List Record
  deriving DecidableEq

namespace Position

def ofRest (before : List Record) : List Record → Option Position
  | [] => none
  | item :: after => some ⟨before, item, after⟩

def seek (records : List Record) (k : Key) : Option Position :=
  ofRest (records.takeWhile (·.1 < k)).reverse (records.dropWhile (·.1 < k))

def seekToLast (records : List Record) : Option Position :=
  match records.reverse with
  | [] => none
  | item :: before => some ⟨before, item, []⟩

def next (p : Position) : Option Position := ofRest (p.item :: p.before) p.after

def prev (p : Position) : Option Position :=
  match p.before with
  | [] => none
  | item :: before => some ⟨before, item, p.item :: p.after⟩

end Position

/-- The loop that adds one, from the last byte on: `char` is signed, so a byte from 128 on is extended by ones. -/
def addOne : List UInt8 → List UInt8
  | [] => []
  | b :: rest =>
    let c := b.toBitVec.signExtend 16 + 1
    UInt8.ofBitVec (c.setWidth 8) :: if c < 256 then rest else addOne rest

def incremented (b : Key) : Key := (addOne b.reverse).reverse

structure Db where
  path : Blob
  pre : Key
  /-- `db_`, by the path it was opened at. -/
  handle : Option Blob
  /-- `iterator_`, which may be null or stand nowhere. -/
  iterator : Option (Option Position)

namespace Db

def start (records : List Record) (step : Int) (b : Key) : Option Position :=
  if step < 0 then
    if b = [] then Position.seekToLast records
    else match Position.seek records (incremented b) with
      | some p => p.prev
      | none => Position.seekToLast records
  else if 0 < step then Position.seek records b
  else none

def move (step : Int) (pos : Option Position) : Option Position :=
  if step < 0 then (· >>= Position.prev)^[step.natAbs] pos else (· >>= Position.next)^[step.natAbs] pos

def position (records : List Record) (step : Int) (pfx : Key) (iteratorClear : Bool) (d : Db) : Option Position :=
  match if iteratorClear then none else d.iterator with
  | none => start records step (d.pre ++ pfx)
  | some pos => move step pos

/-- A record as it is returned, with the key behind the prefix. -/
def strip (d : Db) (e : Record) : Record := (e.1.drop d.pre.length, e.2)

def skip (records : List Record) (step : Int) (pfx : Key) (iteratorClear : Bool) (d : Db) : Db × Option Record :=
  if d.handle.isNone then (d, none)
  else match d.position records step pfx iteratorClear with
    | none => ({ d with iterator := none }, none)
    | some p =>
      if d.pre <+: p.item.1 then ({ d with iterator := some (some p) }, some (d.strip p.item))
      else ({ d with iterator := none }, none)

/-- `first` and `next`, or `last` and `prev`, until there is nothing more; `none` while there may be more. -/
def visit (records : List Record) (step : Int) (d : Db) : Nat → Bool → Option (List Record)
  | 0, _ => none
  | n + 1, clear =>
    match d.skip records step [] clear with
    | (_, none) => some []
    | (d', some e) => (visit records step d' n false).map (e :: ·)

end Db

/-- Both scans end, and go through the records with the prefix, one way and the other. -/
structure ScansAgree (s : Store Blob) (d : Db) : Prop where
  forward : d.visit s.entries 1 (s.entries.length + 1) true = some ((s.under d.pre).map d.strip)
  backward : d.visit s.entries (-1) (s.entries.length + 1) true = some ((s.under d.pre).map d.strip).reverse

/-! ## The successor of a prefix -/

theorem addOne_byte (b : UInt8) : UInt8.ofBitVec ((b.toBitVec.signExtend 16 + 1).setWidth 8) = b + 1 ∧
    (b.toBitVec.signExtend 16 + 1 < 256 ↔ b < 128 ∨ b = 255) := by
  have ha : ∀ n < 256, UInt8.ofBitVec (((UInt8.ofNat n).toBitVec.signExtend 16 + 1).setWidth 8) = UInt8.ofNat n + 1 ∧
      ((UInt8.ofNat n).toBitVec.signExtend 16 + 1 < 256 ↔ UInt8.ofNat n < 128 ∨ UInt8.ofNat n = 255) := by
    decide +kernel
  simpa using ha b.toNat b.toNat_lt

theorem incremented_concat (p : Key) (x : UInt8) :
    incremented (p ++ [x]) = (if x < 128 ∨ x = 255 then p else incremented p) ++ [x + 1] := by
  simp only [incremented, reverse_concat, addOne, (addOne_byte x).1, (addOne_byte x).2]
  split <;> simp

/-- One added to the last byte, and to no other. -/
def PlainEnd (pre : Key) : Prop := ∀ p x, pre = p ++ [x] → x < 128 ∨ p = [] ∧ x ≠ 255

theorem incremented_ne {p : Key} (hp : p ≠ []) : incremented p ≠ p := by
  intro h
  obtain ⟨q, x, rfl⟩ := (eq_nil_or_concat' p).resolve_left hp
  rw [incremented_concat] at h
  have hl := congrArg getLast? h
  simp at hl

theorem length_incremented (p : Key) : (incremented p).length = p.length := by
  induction p using List.reverseRecOn with
  | nil => rfl
  | append_singleton p x ih =>
    rw [incremented_concat]
    split <;> simp [ih]

theorem append_lt_of_lt {a b : Key} (hlen : a.length = b.length) (h : a < b) (u v : Key) : a ++ u < b ++ v := by
  induction a generalizing b with
  | nil => simp [length_eq_zero_iff.mp hlen.symm] at h
  | cons x a ih =>
    cases b with
    | nil => simp at hlen
    | cons y b =>
      rcases Store.cons_lt_cons.mp h with hl | ⟨rfl, hl⟩
      · exact Store.cons_lt_cons.mpr (Or.inl hl)
      · exact Store.cons_lt_cons.mpr (Or.inr ⟨rfl, ih (by simpa using hlen) hl⟩)

/-! ## The two scans -/

section
variable (d : Db) (records : List Record) (step : Int) (pfx : Key) (clear : Bool)

theorem skip_pre : (d.skip records step pfx clear).1.pre = d.pre := by
  unfold Db.skip
  repeat' split
  all_goals rfl

theorem skip_handle : (d.skip records step pfx clear).1.handle = d.handle := by
  unfold Db.skip
  repeat' split
  all_goals rfl

end

def stream (step : Int) : Option Position → List Record
  | none => []
  | some p => p.item :: if step < 0 then p.before else p.after

variable {records : List Record} {step : Int} {d : Db} {pos : Option Position}

theorem stream_move (hs : step = 1 ∨ step = -1) (p : Position) :
    stream step (Db.move step (some p)) = (stream step (some p)).tail := by
  obtain ⟨before, item, after⟩ := p
  rcases hs with rfl | rfl
  · cases after <;> rfl
  · cases before <;> rfl

theorem visit_eq (hs : step = 1 ∨ step = -1) (ho : d.handle.isSome) {n : Nat} {clear : Bool}
    (hpo : d.position records step [] clear = pos) (hn : (stream step pos).length < n) :
    d.visit records step n clear = some (((stream step pos).takeWhile (d.pre <+: ·.1)).map d.strip) := by
  induction n generalizing d clear pos with
  | zero => omega
  | succ n ih =>
    have hno : d.handle.isNone = false := by simpa using ho
    rw [Db.visit, Db.skip, hpo, hno]
    cases pos with
    | none => rfl
    | some p =>
      by_cases hp : d.pre <+: p.item.1
      · have hmo : Db.position records step [] false { d with iterator := some (some p) } =
            Db.move step (some p) := rfl
        have hh : (stream step (Db.move step (some p))).length < n := by
          rw [stream_move hs]
          simpa [stream] using hn
        have hr := ih (d := { d with iterator := some (some p) }) ho hmo hh
        rw [stream_move hs] at hr
        simp only [stream, hp, decide_true, takeWhile_cons_of_pos, map_cons]
        exact congrArg (Option.map (d.strip p.item :: ·)) hr
      · simp [hp, stream]

theorem stream_seek (k : Key) : stream 1 (Position.seek records k) = records.dropWhile (·.1 < k) := by
  unfold Position.seek
  cases records.dropWhile (·.1 < k) <;> rfl

theorem stream_seekToLast : stream (-1) (Position.seekToLast records) = records.reverse := by
  unfold Position.seekToLast
  cases records.reverse <;> rfl

theorem stream_start_back {b : Key} (hb : b ≠ []) :
    stream (-1) (Db.start records (-1) b) = (records.takeWhile (·.1 < incremented b)).reverse := by
  have hs := takeWhile_append_dropWhile (p := (·.1 < incremented b)) (l := records)
  simp only [Db.start, hb, Position.seek]
  cases hr : records.dropWhile (·.1 < incremented b) with
  | nil =>
    rw [hr, append_nil] at hs
    rw [hs]
    exact stream_seekToLast
  | cons e rest =>
    cases hf : (records.takeWhile (·.1 < incremented b)).reverse <;>
      simp [Position.ofRest, Position.prev, stream]

theorem not_prefix_of_lt {k pre : Key} (hl : k < pre) : ¬ pre <+: k := by
  rintro ⟨t, rfl⟩
  exact (Store.le_append pre t).not_gt hl

theorem scan_self (s : Store Blob) (pre : Key) :
    (s.entries.dropWhile (·.1 < pre)).takeWhile (pre <+: ·.1) = s.under pre := by
  have hs : s.scan pre pre = _ := s.scan_eq (prefix_refl pre)
  rw [Store.scan] at hs
  rw [hs, filter_eq_self.mpr]
  intro e he
  exact decide_eq_true (not_lt.mp fun hl => not_prefix_of_lt hl (of_decide_eq_true (mem_filter.mp he).2))

theorem forward_scan (s : Store Blob) (ho : d.handle.isSome) :
    d.visit s.entries 1 (s.entries.length + 1) true = some ((s.under d.pre).map d.strip) := by
  have hs : stream 1 (d.position s.entries 1 [] true) = s.entries.dropWhile (·.1 < d.pre) := by
    simpa [Db.position, Db.start] using stream_seek d.pre
  have hlen := (dropWhile_sublist (p := (·.1 < d.pre)) (l := s.entries)).length_le
  rw [visit_eq (Or.inl rfl) ho rfl (by rw [hs]; omega), hs, scan_self]

theorem backward_scan (s : Store Blob) (ho : d.handle.isSome) {below : List Record}
    (ha : stream (-1) (Db.start s.entries (-1) d.pre) = below.reverse) (hb : below <+ s.entries) :
    d.visit s.entries (-1) (s.entries.length + 1) true =
      some ((below.reverse.takeWhile (d.pre <+: ·.1)).map d.strip) := by
  have hs : stream (-1) (d.position s.entries (-1) [] true) = below.reverse := by
    simpa [Db.position] using ha
  have hlen := hb.length_le
  rw [visit_eq (Or.inr rfl) ho rfl (by rw [hs, length_reverse]; omega), hs]

/-- Below the successor of a prefix lie the keys below the prefix, and those that have it. -/
theorem lt_successor_iff {p k : Key} {x : UInt8} (hx : x ≠ 255) : k < p ++ [x + 1] ↔ k < p ++ [x] ∨ p ++ [x] <+: k := by
  induction p generalizing k with
  | nil =>
    cases k with
    | nil => simp
    | cons y t =>
      have hb : y < x + 1 ↔ y < x ∨ x = y := by
        simp only [UInt8.lt_iff_toNat_lt, ← UInt8.toNat_inj, UInt8.toNat_add, ne_eq] at hx ⊢
        have := x.toNat_lt
        simp only [UInt8.reduceToNat] at hx ⊢
        omega
      simp [Store.cons_lt_cons, hb]
  | cons a p ih =>
    cases k with
    | nil => simp
    | cons y t => grind [Store.cons_lt_cons]

theorem takeWhile_successor (s : Store Blob) {p : Key} {x : UInt8} (hx : x ≠ 255) :
    s.entries.takeWhile (·.1 < p ++ [x + 1]) = s.entries.filter (·.1 < p ++ [x]) ++ s.under (p ++ [x]) := by
  rw [Store.takeWhile_lt_eq_filter s.sorted]
  have hs : (s.entries.filter (·.1 < p ++ [x]) ++ s.under (p ++ [x])).Pairwise fun a b => a.1 < b.1 := by
    apply pairwise_append.mpr ⟨s.sorted.filter _, s.sorted.filter _, ?_⟩
    intro a ha b hb
    obtain ⟨t, ht⟩ := of_decide_eq_true (mem_filter.mp hb).2
    exact (of_decide_eq_true (mem_filter.mp ha).2).trans_le (ht ▸ Store.le_append _ t)
  apply Store.eq_of_mem_iff (s.sorted.filter _) hs
  intro e
  simp [Store.under, lt_successor_iff hx, and_or_left]

theorem takeWhile_reverse_under (s : Store Blob) (pre : Key) :
    (s.entries.filter (·.1 < pre) ++ s.under pre).reverse.takeWhile (pre <+: ·.1) = (s.under pre).reverse := by
  have hu : ∀ e ∈ (s.under pre).reverse, decide (pre <+: e.1) = true := fun e he =>
    (mem_filter.mp (mem_reverse.mp he)).2
  rw [reverse_append, takeWhile_append_of_pos hu]
  cases hb : (s.entries.filter (·.1 < pre)).reverse with
  | nil => simp
  | cons e rest =>
    have he : e ∈ (s.entries.filter (·.1 < pre)).reverse := by simp [hb]
    simp [not_prefix_of_lt (of_decide_eq_true (mem_filter.mp (mem_reverse.mp he)).2)]

theorem agree_of_plain (ho : d.handle.isSome) (hpl : PlainEnd d.pre) (s : Store Blob) : ScansAgree s d := by
  refine ⟨forward_scan s ho, ?_⟩
  rcases eq_nil_or_concat' d.pre with hi | ⟨p, x, hp⟩
  · have ha : s.entries = s.entries.filter (·.1 < d.pre) ++ s.under d.pre := by simp [hi, Store.under]
    have hs : stream (-1) (Db.start s.entries (-1) d.pre) = s.entries.reverse := by
      simpa [hi, Db.start] using stream_seekToLast
    rw [backward_scan s ho hs (Sublist.refl _), ha, takeWhile_reverse_under, map_reverse]
  · have hx : x ≠ 255 := by
      rcases hpl p x hp with hl | ⟨-, hn⟩
      · rintro rfl
        exact absurd hl (by decide)
      · exact hn
    have hu : incremented d.pre = p ++ [x + 1] := by
      rw [hp, incremented_concat]
      rcases hpl p x hp with hl | ⟨rfl, -⟩
      · simp [hl]
      · simp [incremented, addOne]
    have hn : d.pre ≠ [] := by simp [hp]
    rw [backward_scan s ho (stream_start_back hn) (takeWhile_sublist _), hu, takeWhile_successor s hx,
      ← hp, takeWhile_reverse_under, map_reverse]

theorem not_agree_of_start {s : Store Blob} (ho : d.handle.isSome) (hn : d.pre ≠ []) (hs : s.under d.pre ≠ [])
    (ha : ∀ e ∈ (s.entries.takeWhile (·.1 < incremented d.pre)).getLast?, ¬ d.pre <+: e.1) : ¬ ScansAgree s d := by
  intro h
  have hb := h.backward
  rw [backward_scan s ho (stream_start_back hn) (takeWhile_sublist _)] at hb
  have hi : (s.entries.takeWhile (·.1 < incremented d.pre)).reverse.takeWhile (d.pre <+: ·.1) = [] := by
    cases hl : (s.entries.takeWhile (·.1 < incremented d.pre)).reverse with
    | nil => rfl
    | cons e rest =>
      have he := ha e (by rw [← head?_reverse, hl]; rfl)
      simp [he]
  simp [hi, hs] at hb

end Gyro.Zyre
