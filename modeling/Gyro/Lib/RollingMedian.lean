import Mathlib.Data.List.Rotate
import Mathlib.Tactic.Ring

/-!
# A rolling median

The last `capacity` values stand in a ring and, by index, in a double heap: position 0
holds the median, positive positions a min-heap, negative ones a max-heap. The
operations are written once, over the nodes of a side: node `i` stands at `i` or `-i`.
-/

set_option linter.unusedSectionVars false

namespace RollingMedian

inductive Side
  | min
  | max
  deriving DecidableEq, Repr

namespace Side

def other : Side → Side
  | min => max
  | max => min

def place : Side → Nat → Int
  | min, i => i
  | max, i => -i

def Before {V : Type} [LT V] : Side → V → V → Prop
  | min, a, b => a < b
  | max, a, b => b < a

def Le {V : Type} [LE V] : Side → V → V → Prop
  | min, a, b => a ≤ b
  | max, a, b => b ≤ a

instance {V : Type} [LT V] [DecidableLT V] (d : Side) (a b : V) : Decidable (d.Before a b) :=
  match d with
  | min => inferInstanceAs (Decidable (a < b))
  | max => inferInstanceAs (Decidable (b < a))

@[simp] theorem place_zero (d : Side) : d.place 0 = 0 := by cases d <;> rfl

@[simp] theorem place_inj {d : Side} {i j : Nat} : d.place i = d.place j ↔ i = j := by
  cases d <;> simp only [Side.place] <;> omega

@[simp] theorem place_other_ne {d : Side} {i j : Nat} (hi : 0 < i) : d.other.place i ≠ d.place j := by
  cases d <;> simp only [Side.place, other] <;> omega

@[simp] theorem other_other (d : Side) : d.other.other = d := by cases d <;> rfl

section Order
variable {V : Type} [LE V] [LT V] [Std.IsLinearOrder V] [Std.LawfulOrderLT V] {d : Side} {a b c : V}

theorem le_refl (d : Side) (a : V) : d.Le a a := by cases d <;> exact Std.IsPreorder.le_refl a

theorem Le.trans (ha : d.Le a b) (hb : d.Le b c) : d.Le a c := by
  cases d
  · exact Std.IsPreorder.le_trans a b c ha hb
  · exact Std.IsPreorder.le_trans c b a hb ha

theorem not_before : ¬ d.Before a b ↔ d.Le b a := by
  cases d <;> exact Std.not_lt

theorem Before.le (h : d.Before a b) : d.Le a b := by
  cases d <;> exact Std.le_of_lt h

theorem le_other : d.other.Le a b ↔ d.Le b a := by cases d <;> rfl

end Order

end Side

structure Rolling (V : Type) where
  capacity : Nat
  data : Nat → V
  pos : Nat → Int
  heap : Int → Nat
  idx : Nat
  minCt : Nat
  maxCt : Nat
  sz : Nat

def fillPos (k : Nat) : Int :=
  if k % 2 = 1 then -((k + 1) / 2 : Nat) else ((k + 1) / 2 : Nat)

def fillIndex (i : Int) : Nat :=
  if i < 0 then 2 * i.natAbs - 1 else 2 * i.natAbs

namespace Rolling

variable {V : Type} [LT V] [LE V] [DecidableLT V]

def clear (s : Rolling V) : Rolling V :=
  { s with idx := 0, minCt := 0, maxCt := 0, sz := 0, pos := fillPos, heap := fillIndex }

def empty (capacity : Nat) (v : V) : Rolling V where
  capacity := capacity
  data := fun _ => v
  pos := fillPos
  heap := fillIndex
  idx := 0
  minCt := 0
  maxCt := 0
  sz := 0

def val (s : Rolling V) (i : Int) : V := s.data (s.heap i)

def node (s : Rolling V) (d : Side) (i : Nat) : V := s.val (d.place i)

def count (s : Rolling V) : Side → Nat
  | .min => s.minCt
  | .max => s.maxCt

def mmexchange (s : Rolling V) (i j : Int) : Rolling V :=
  let heap := Function.update (Function.update s.heap i (s.heap j)) j (s.heap i)
  { s with heap := heap, pos := Function.update (Function.update s.pos (heap i) i) (heap j) j }

def mmCmpExch (s : Rolling V) (d : Side) (i : Nat) : Bool × Rolling V :=
  if d.Before (s.node d i) (s.node d (i / 2)) then (true, s.mmexchange (d.place i) (d.place (i / 2)))
  else (false, s)

def child (s : Rolling V) (d : Side) (i : Nat) : Nat :=
  if i < s.count d ∧ d.Before (s.node d (i + 1)) (s.node d i) then i + 1 else i

/-- At the first child `i`, which doubles in every round, so the count of the heap bounds them. -/
def sortDownLoop (d : Side) : Nat → Rolling V → Nat → Rolling V
  | 0, s, _ => s
  | rounds + 1, s, i =>
    if i ≤ s.count d then
      let c := s.child d i
      let r := s.mmCmpExch d c
      if r.1 then sortDownLoop d rounds r.2 (c * 2) else r.2
    else s

def sortDown (s : Rolling V) (d : Side) (i : Nat) : Rolling V :=
  sortDownLoop d (s.count d) s (i * 2)

def minSortDown (s : Rolling V) (i : Nat) : Rolling V := s.sortDown .min i

def maxSortDown (s : Rolling V) (i : Nat) : Rolling V := s.sortDown .max i

/-- The loop of `minSortUp` and `maxSortUp`, with whether it came to the median. -/
def sortUpLoop (d : Side) : Nat → Rolling V → Nat → Bool × Rolling V
  | 0, s, i => (i == 0, s)
  | rounds + 1, s, i =>
    if 0 < i then
      let r := s.mmCmpExch d i
      if r.1 then sortUpLoop d rounds r.2 (i / 2) else (false, r.2)
    else (true, s)

def sortUp (s : Rolling V) (d : Side) (i : Nat) : Bool × Rolling V := sortUpLoop d i s i

def minSortUp (s : Rolling V) (i : Nat) : Bool × Rolling V := s.sortUp .min i

def maxSortUp (s : Rolling V) (i : Nat) : Bool × Rolling V := s.sortUp .max i

def write (s : Rolling V) (v : V) : Rolling V :=
  { s with
    data := Function.update s.data s.idx v
    idx := (s.idx + 1) % s.capacity
    sz := min (s.sz + 1) s.capacity }

/-- The top of a side takes the place of the median when it belongs there. -/
def raise (s : Rolling V) (d : Side) : Rolling V :=
  let r := s.mmCmpExch d 1
  if r.1 then r.2.sortDown d 1 else r.2

/-- The new value is in the min-heap and not larger. The max-heap is filled first, so it has a top.
-/
def settleMin (s : Rolling V) (p : Nat) : Rolling V :=
  let up := s.minSortUp p
  if up.1 then up.2.raise .max else up.2

/-- The new value stands in the max-heap and is not smaller than the old one. -/
def settleMax (s : Rolling V) (p : Nat) : Rolling V :=
  let up := s.maxSortUp p
  if up.1 ∧ 0 < up.2.minCt then up.2.raise .min else up.2

def settleMedian (s : Rolling V) (d : Side) : Rolling V :=
  if 0 < s.count d then
    let up := s.sortUp d 1
    if up.1 then up.2.sortDown d 1 else up.2
  else s

def insert (s : Rolling V) (v : V) : Rolling V :=
  let p := s.pos s.idx
  let old := s.data s.idx
  let w := s.write v
  if 0 < p then
    if s.minCt < (s.capacity - 1) / 2 then settleMin { w with minCt := s.minCt + 1 } p.natAbs
    else if old < v then w.minSortDown p.natAbs
    else w.settleMin p.natAbs
  else if p < 0 then
    if s.maxCt < s.capacity / 2 then settleMax { w with maxCt := s.maxCt + 1 } p.natAbs
    else if v < old then w.maxSortDown p.natAbs
    else w.settleMax p.natAbs
  else (w.settleMedian .max).settleMedian .min

def content (s : Rolling V) : List V := ((List.range s.sz).map s.data).rotate s.idx

end Rolling

/-! ## The order of a side -/

section Heaped
variable {V : Type} [LE V] (d : Side) (f : Nat → V) (n : Nat)

def Heaped : Prop := ∀ j, 0 < j → j ≤ n → d.Le (f (j / 2)) (f j)

def Headless : Prop := ∀ j, 1 < j → j ≤ n → d.Le (f (j / 2)) (f j)

structure DownAt (i : Nat) : Prop where
  off : ∀ j, 0 < j → j ≤ n → j / 2 ≠ i → d.Le (f (j / 2)) (f j)
  grand : ∀ c, c / 2 = i → c ≤ n → d.Le (f (i / 2)) (f c)

structure UpAt (i : Nat) : Prop where
  off : ∀ j, 0 < j → j ≤ n → j ≠ i → d.Le (f (j / 2)) (f j)
  grand : ∀ c, 0 < i → c / 2 = i → c ≤ n → d.Le (f (i / 2)) (f c)

end Heaped

def swapped {V : Type} (f : Nat → V) (i j : Nat) (k : Nat) : V :=
  if k = j then f i else if k = i then f j else f k

variable {V : Type} [LE V] [LT V] [Std.IsLinearOrder V] [Std.LawfulOrderLT V]
variable {d : Side} {f : Nat → V} {n i c : Nat}

theorem UpAt.move (h : UpAt d f n i) (hi : 0 < i) (hin : i ≤ n)
    (hb : d.Before (f i) (f (i / 2))) : UpAt d (swapped f i (i / 2)) n (i / 2) := by
  constructor
  · intro j hj hjn hn
    by_cases hji : j = i
    · subst hji
      simpa [swapped, hn] using hb.le
    · by_cases hp : j / 2 = i / 2
      · have hs := h.off j hj hjn hji
        rw [hp] at hs
        simpa [swapped, hp, hn, hji] using hb.le.trans hs
      · by_cases hh : j / 2 = i
        · have hg := h.grand j hi hh hjn
          have hn' : i ≠ i / 2 := by omega
          simpa [swapped, hh, hn, hji, hn'] using hg
        · simpa [swapped, hp, hh, hn, hji] using h.off j hj hjn hji
  · intro c ho hc hcn
    have ha := h.off (i / 2) ho (by omega) (by omega)
    have hq : i / 2 / 2 ≠ i / 2 := by omega
    have hqi : i / 2 / 2 ≠ i := by omega
    by_cases hci : c = i
    · subst hci
      have hn : c ≠ c / 2 := by omega
      simpa [swapped, hq, hqi, hn] using ha
    · have hs := h.off c (by omega) hcn hci
      rw [hc] at hs
      have hn : c ≠ i / 2 := by omega
      simpa [swapped, hq, hqi, hn, hci] using ha.trans hs

theorem UpAt.stop (h : UpAt d f n i) (hb : 0 < i → d.Le (f (i / 2)) (f i)) : Heaped d f n := by
  intro j hj hn
  by_cases hi : j = i
  · exact hi ▸ hb (hi ▸ hj)
  · exact h.off j hj hn hi

theorem DownAt.move (h : DownAt d f n i) (hi : 0 < i) (hc : c / 2 = i) (hcn : c ≤ n)
    (hbe : ∀ e, e / 2 = i → e ≤ n → d.Le (f c) (f e)) (hb : d.Before (f c) (f i)) :
    DownAt d (swapped f c (c / 2)) n c := by
  rw [hc]
  constructor
  · intro j hj hn hne
    by_cases hjc : j = c
    · subst hjc
      have hji : j ≠ i := by omega
      simpa [swapped, hc, hji] using hb.le
    · by_cases hp : j / 2 = i
      · have hji : j ≠ i := by omega
        simpa [swapped, hp, hjc, hji] using hbe j hp hn
      · have ho := h.off j hj hn hp
        by_cases hji : j = i
        · subst hji
          simpa [swapped, hp, hne] using h.grand c hc hcn
        · simpa [swapped, hp, hne, hji, hjc] using ho
  · intro e he hen
    have ho := h.off e (by omega) hen (by omega)
    have hei : e ≠ i := by omega
    have hec : e ≠ c := by omega
    rw [he] at ho
    simpa [swapped, hc, hei, hec] using ho

theorem DownAt.stop (h : DownAt d f n i) (hb : ∀ c, c / 2 = i → c ≤ n → d.Le (f i) (f c)) : Heaped d f n := by
  intro j hj hn
  by_cases hp : j / 2 = i
  · exact hp ▸ hb j hp hn
  · exact h.off j hj hn hp

theorem Heaped.root_le (h : Heaped d f n) {j : Nat} (hj : j ≤ n) : d.Le (f 0) (f j) := by
  induction j using Nat.strongRecOn with
  | ind j ih =>
    by_cases hj0 : j = 0
    · subst hj0
      exact Side.le_refl d _
    · have hh : j / 2 < j := Nat.div_lt_self (by omega) (by decide)
      exact (ih (j / 2) hh (by omega)).trans (h j (by omega) hj)

theorem Heaped.top_le (h : Heaped d f n) {j : Nat} (hp : 0 < j) (hj : j ≤ n) : d.Le (f 1) (f j) := by
  induction j using Nat.strongRecOn with
  | ind j ih =>
    by_cases hj1 : j = 1
    · subst hj1
      exact Side.le_refl d _
    · have hh : j / 2 < j := Nat.div_lt_self hp (by decide)
      exact (ih (j / 2) hh (by omega) (by omega)).trans (h j hp hj)

theorem Heaped.headless (h : Heaped d f n) : Headless d f n := fun j hj hn => h j (by omega) hn

theorem Headless.heaped (h : Headless d f n) (ht : 1 ≤ n → d.Le (f 0) (f 1)) : Heaped d f n := by
  intro j hj hn
  by_cases hj1 : j = 1
  · subst hj1
    exact ht hn
  · exact h j (by omega) hn

end RollingMedian
