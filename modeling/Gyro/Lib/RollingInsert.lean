import Gyro.Lib.RollingMedian

/-!
# Insertion into a rolling median

Insertion keeps both heaps in order around the median and the ring holding the last
values, so the middle of the structure is the middle of those values sorted.
-/

set_option linter.unusedSectionVars false

namespace RollingMedian

open List

namespace Rolling

variable {V : Type} {s s' t : Rolling V} {d : Side} {i j k : Nat}

/-! ## Where the indexes stand -/

def InUse (s : Rolling V) (i : Int) : Prop := 0 < s.sz ∧ -(s.maxCt : Int) ≤ i ∧ i ≤ s.minCt

/-- Positions and ring indexes name each other, those in use stand together, and the others where
`clear` put them. -/
structure Placed (s : Rolling V) : Prop where
  capacity_pos : 0 < s.capacity
  sz_le : s.sz ≤ s.capacity
  minCt_eq : s.minCt = (s.sz - 1) / 2
  maxCt_eq : s.maxCt = s.sz / 2
  idx_lt : s.idx < s.capacity
  idx_eq : s.sz < s.capacity → s.idx = s.sz
  heap_pos : ∀ k < s.capacity, s.heap (s.pos k) = k
  pos_inUse : ∀ k < s.sz, s.InUse (s.pos k)
  heap_lt : ∀ i, s.InUse i → s.heap i < s.sz
  pos_heap : ∀ i, s.InUse i → s.pos (s.heap i) = i
  waiting : ∀ k, s.sz ≤ k → k < s.capacity → s.pos k = fillPos k

theorem fillIndex_fillPos (k : Nat) : fillIndex (fillPos k) = k := by
  unfold fillIndex fillPos
  split <;> split <;> omega

theorem clear_placed (h : 0 < s.capacity) : s.clear.Placed where
  capacity_pos := h
  sz_le := Nat.zero_le _
  minCt_eq := by simp [clear]
  maxCt_eq := by simp [clear]
  idx_lt := h
  idx_eq := fun _ => rfl
  heap_pos := fun k _ => fillIndex_fillPos k
  pos_inUse := fun k hk => absurd hk (Nat.not_lt_zero k)
  heap_lt := fun _ hi => absurd hi.1 (Nat.lt_irrefl 0)
  pos_heap := fun _ hi => absurd hi.1 (Nat.lt_irrefl 0)
  waiting := fun _ _ _ => rfl

theorem Placed.heap_inj (h : s.Placed) {p q : Int} (hp : s.InUse p) (hq : s.InUse q)
    (heq : s.heap p = s.heap q) : p = q := by
  rw [← h.pos_heap p hp, ← h.pos_heap q hq, heq]

theorem inUse_place (hp : 0 < s.sz) (hi : i ≤ s.count d) : s.InUse (d.place i) := by
  cases d <;> simp only [InUse, Side.place, count] at * <;> omega

theorem mmexchange_placed {p q : Int} (h : s.Placed) (hp : s.InUse p) (hq : s.InUse q)
    (hn : p ≠ q) : (s.mmexchange p q).Placed := by
  have hh : ∀ i, (s.mmexchange p q).heap i =
      if i = q then s.heap p else if i = p then s.heap q else s.heap i := by
    intro i
    simp only [mmexchange, Function.update_apply]
  have ho : ∀ k, (s.mmexchange p q).pos k =
      if k = s.heap p then q else if k = s.heap q then p else s.pos k := by
    intro k
    simp [mmexchange, Function.update_apply, hn]
  exact
    { capacity_pos := h.capacity_pos
      sz_le := h.sz_le
      minCt_eq := h.minCt_eq
      maxCt_eq := h.maxCt_eq
      idx_lt := h.idx_lt
      idx_eq := h.idx_eq
      heap_pos := by
        intro k hk
        rw [hh]
        have hb := h.heap_pos k hk
        split_ifs <;> grind
      pos_inUse := by
        intro k hk
        rw [ho]
        split_ifs
        · exact hq
        · exact hp
        · exact h.pos_inUse k hk
      heap_lt := by
        intro i hi
        rw [hh]
        split_ifs
        · exact h.heap_lt p hp
        · exact h.heap_lt q hq
        · exact h.heap_lt i hi
      pos_heap := by
        intro i hi
        have hb := h.pos_heap i hi
        have ha := h.pos_heap p hp
        have hbck := h.pos_heap q hq
        rw [ho]
        split_ifs <;> grind
      waiting := by
        intro k hk hc
        have hnp : k ≠ s.heap p := fun heq => absurd (h.heap_lt p hp) (by change s.sz ≤ k at hk; omega)
        have hnq : k ≠ s.heap q := fun heq => absurd (h.heap_lt q hq) (by change s.sz ≤ k at hk; omega)
        rw [ho, if_neg hnp, if_neg hnq]
        exact h.waiting k hk hc }

/-! ## What the sorting moves -/

structure Kept (s s' : Rolling V) : Prop where
  data : s'.data = s.data
  capacity : s'.capacity = s.capacity
  idx : s'.idx = s.idx
  minCt : s'.minCt = s.minCt
  maxCt : s'.maxCt = s.maxCt
  sz : s'.sz = s.sz
  placed : 0 < s.sz → s.Placed → s'.Placed

structure Moved (d : Side) (s s' : Rolling V) : Prop extends Kept s s' where
  other : ∀ j, 0 < j → s'.node d.other j = s.node d.other j

theorem Kept.refl (s : Rolling V) : Kept s s := ⟨rfl, rfl, rfl, rfl, rfl, rfl, fun _ h => h⟩

theorem Moved.refl (d : Side) (s : Rolling V) : Moved d s s := ⟨Kept.refl s, fun _ _ => rfl⟩

theorem Kept.trans (h : Kept s s') (h' : Kept s' t) : Kept s t where
  data := h'.data.trans h.data
  capacity := h'.capacity.trans h.capacity
  idx := h'.idx.trans h.idx
  minCt := h'.minCt.trans h.minCt
  maxCt := h'.maxCt.trans h.maxCt
  sz := h'.sz.trans h.sz
  placed := fun ho hp => h'.placed (h.sz ▸ ho) (h.placed ho hp)

theorem Moved.trans (h : Moved d s s') (h' : Moved d s' t) : Moved d s t where
  toKept := h.toKept.trans h'.toKept
  other := fun j hj => (h'.other j hj).trans (h.other j hj)

theorem Moved.count (h : Moved d s s') (e : Side) : s'.count e = s.count e := by
  cases e
  · exact h.minCt
  · exact h.maxCt

theorem mmexchange_node (s : Rolling V) (d : Side) (i j : Nat) :
    (s.mmexchange (d.place i) (d.place j)).node d = swapped (s.node d) i j := by
  funext k
  simp only [node, val, mmexchange, swapped, Function.update_apply, Side.place_inj]
  split_ifs <;> rfl

theorem mmexchange_moved (hi : i ≤ s.count d) (hj : j ≤ s.count d) (hn : i ≠ j) :
    Moved d s (s.mmexchange (d.place i) (d.place j)) where
  data := rfl
  capacity := rfl
  idx := rfl
  minCt := rfl
  maxCt := rfl
  sz := rfl
  other := by
    intro k hk
    simp [node, val, mmexchange, Function.update_apply, Side.place_other_ne hk]
  placed := fun hp h =>
    mmexchange_placed h (inUse_place hp hi) (inUse_place hp hj) (fun heq => hn (Side.place_inj.mp heq))

variable [LT V] [LE V] [DecidableLT V]

theorem mmCmpExch_of_before (h : d.Before (s.node d i) (s.node d (i / 2))) :
    s.mmCmpExch d i = (true, s.mmexchange (d.place i) (d.place (i / 2))) := if_pos h

theorem mmCmpExch_of_not_before (h : ¬ d.Before (s.node d i) (s.node d (i / 2))) :
    s.mmCmpExch d i = (false, s) := if_neg h

variable [Std.IsLinearOrder V] [Std.LawfulOrderLT V]

theorem child_best (hi : i % 2 = 0) (hn : i ≤ s.count d) : (s.child d i) / 2 = i / 2 ∧ s.child d i ≤ s.count d ∧
      ∀ e, e / 2 = i / 2 → e ≤ s.count d → d.Le (s.node d (s.child d i)) (s.node d e) := by
  unfold child
  split_ifs with hb
  · refine ⟨by omega, hb.1, ?_⟩
    intro e he _
    obtain rfl | rfl : e = i ∨ e = i + 1 := by omega
    · exact hb.2.le
    · exact Side.le_refl d _
  · refine ⟨rfl, hn, ?_⟩
    intro e he hen
    obtain rfl | rfl : e = i ∨ e = i + 1 := by omega
    · exact Side.le_refl d _
    · exact Side.not_before.mp fun h => hb ⟨by omega, h⟩

theorem sortDownLoop_spec {rounds : Nat} (hi : 0 < i) (hr : s.count d < i * 2 + rounds)
    (h : DownAt d (s.node d) (s.count d) i) : Moved d s (sortDownLoop d rounds s (i * 2)) ∧
      (sortDownLoop d rounds s (i * 2)).node d 0 = s.node d 0 ∧
      Heaped d ((sortDownLoop d rounds s (i * 2)).node d) (s.count d) := by
  induction rounds generalizing s i with
  | zero => exact ⟨Moved.refl d s, rfl, h.stop fun c hc hn => by omega⟩
  | succ rounds ih =>
    unfold sortDownLoop
    by_cases hin : i * 2 ≤ s.count d
    · obtain ⟨hp, hn, hbe⟩ := child_best (by omega) hin
      have hh : i * 2 / 2 = i := by omega
      rw [hh] at hp hbe
      simp only [if_pos hin]
      generalize s.child d (i * 2) = c at hp hn hbe
      by_cases hb : d.Before (s.node d c) (s.node d (c / 2))
      · simp only [mmCmpExch_of_before hb, ↓reduceIte]
        have ho : Moved d s (s.mmexchange (d.place c) (d.place (c / 2))) :=
          mmexchange_moved hn (by omega) (by omega)
        have hno := mmexchange_node s d c (c / 2)
        have hd := h.move hi hp hn hbe (hp ▸ hb)
        rw [← hno] at hd
        obtain ⟨hm', hro, hhe⟩ :=
          ih (by omega) (by rw [ho.count]; omega) hd
        refine ⟨ho.trans hm', hro.trans ?_, hhe⟩
        have hc0 : c / 2 ≠ 0 := by omega
        have hc0' : c ≠ 0 := by omega
        simp [hno, swapped, hc0.symm, hc0'.symm]
      · simp only [mmCmpExch_of_not_before hb, Bool.false_eq_true, ↓reduceIte]
        rw [hp] at hb
        exact ⟨Moved.refl d s, trivial, h.stop fun e he hen =>
          (Side.not_before.mp hb).trans (hbe e he hen)⟩
    · simp only [if_neg hin]
      exact ⟨Moved.refl d s, trivial, h.stop fun c hc hn => by omega⟩

theorem sortDown_spec (hi : 0 < i) (h : DownAt d (s.node d) (s.count d) i) :
    Moved d s (s.sortDown d i) ∧ (s.sortDown d i).node d 0 = s.node d 0 ∧
      Heaped d ((s.sortDown d i).node d) (s.count d) :=
  sortDownLoop_spec hi (by omega) h

theorem sortUpLoop_zero (d : Side) (rounds : Nat) (s : Rolling V) : sortUpLoop d rounds s 0 = (true, s) := by
  cases rounds <;> rfl

theorem sortUpLoop_spec {rounds : Nat} (hi : i ≤ rounds) (hn : i ≤ s.count d)
    (h : UpAt d (s.node d) (s.count d) i) : Moved d s (sortUpLoop d rounds s i).2 ∧
      Heaped d ((sortUpLoop d rounds s i).2.node d) (s.count d) ∧
      ((sortUpLoop d rounds s i).1 = false → (sortUpLoop d rounds s i).2.node d 0 = s.node d 0) ∧
      (0 < i → (sortUpLoop d rounds s i).1 = true → (sortUpLoop d rounds s i).2.node d 1 = s.node d 0) := by
  induction rounds generalizing s i with
  | zero =>
    obtain rfl : i = 0 := by omega
    exact ⟨Moved.refl d s, h.stop fun hp => absurd hp (Nat.lt_irrefl 0), fun _ => rfl,
      fun hp => absurd hp (Nat.lt_irrefl 0)⟩
  | succ rounds ih =>
    unfold sortUpLoop
    by_cases hp : 0 < i
    · simp only [if_pos hp]
      by_cases hb : d.Before (s.node d i) (s.node d (i / 2))
      · simp only [mmCmpExch_of_before hb, ↓reduceIte]
        have ho : Moved d s (s.mmexchange (d.place i) (d.place (i / 2))) :=
          mmexchange_moved hn (by omega) (by omega)
        have hno := mmexchange_node s d i (i / 2)
        have hu := h.move hp hn hb
        rw [← hno] at hu
        obtain ⟨hm', hh, hs, hto⟩ :=
          ih (by omega) (by rw [ho.count]; omega) hu
        by_cases ht1 : i / 2 = 0
        · obtain rfl : i = 1 := by omega
          simp only [Nat.reduceDiv, sortUpLoop_zero] at hm' hh ⊢
          refine ⟨ho.trans hm', hh, fun ht => absurd ht (by decide), ?_⟩
          intro _ _
          rw [mmexchange_node]
          simp [swapped]
        · have hr : (s.mmexchange (d.place i) (d.place (i / 2))).node d 0 = s.node d 0 := by
            have hi0 : i ≠ 0 := by omega
            simp [hno, swapped, Ne.symm ht1, hi0.symm]
          exact ⟨ho.trans hm', hh, fun hf => (hs hf).trans hr,
            fun _ ht => (hto (by omega) ht).trans hr⟩
      · simp only [mmCmpExch_of_not_before hb, Bool.false_eq_true, ↓reduceIte]
        exact ⟨Moved.refl d s, h.stop fun _ => Side.not_before.mp hb, fun _ => trivial,
          fun _ hf => absurd hf (by decide)⟩
    · simp only [if_neg hp]
      exact ⟨Moved.refl d s, h.stop fun hp' => absurd hp' hp,
        fun ht => absurd ht (by decide), fun hp' => absurd hp' hp⟩

theorem sortUp_spec (hi : i ≤ s.count d) (h : UpAt d (s.node d) (s.count d) i) :
    Moved d s (s.sortUp d i).2 ∧ Heaped d ((s.sortUp d i).2.node d) (s.count d) ∧
      ((s.sortUp d i).1 = false → (s.sortUp d i).2.node d 0 = s.node d 0) ∧
      (0 < i → (s.sortUp d i).1 = true → (s.sortUp d i).2.node d 1 = s.node d 0) :=
  sortUpLoop_spec (Nat.le_refl i) hi h

def Ordered (s : Rolling V) : Prop := ∀ d, Heaped d (s.node d) (s.count d)

theorem node_zero (s : Rolling V) (d e : Side) : s.node d 0 = s.node e 0 := by
  simp [node]

theorem ordered_of_side (d : Side) (h : Heaped d (s.node d) (s.count d))
    (h' : Heaped d.other (s.node d.other) (s.count d.other)) : s.Ordered := by
  intro e
  cases d <;> cases e <;> assumption

theorem Moved.headless (h : Moved d s s') (hs : Headless d.other (s.node d.other) (s.count d.other)) :
    Headless d.other (s'.node d.other) (s'.count d.other) := by
  intro j hj hn
  rw [h.count] at hn
  rw [h.other j (by omega), h.other (j / 2) (by omega)]
  exact hs j hj hn

theorem raise_of_not_before (h : ¬ d.Before (s.node d 1) (s.node d 0)) : s.raise d = s := by
  simp only [raise, mmCmpExch_of_not_before h, Bool.false_eq_true, ↓reduceIte]

section
variable (hn : 0 < s.count d) (hs : Headless d (s.node d) (s.count d))
include hn hs

theorem raise_of_before
    (hb : d.Before (s.node d 1) (s.node d 0)) : Moved d s (s.raise d) ∧ Heaped d ((s.raise d).node d) (s.count d) ∧
      (s.raise d).node d 0 = s.node d 1 := by
  have hmo : Moved d s (s.mmexchange (d.place 1) (d.place 0)) :=
    mmexchange_moved hn (Nat.zero_le _) (by decide)
  have ho := mmexchange_node s d 1 0
  have hdo : DownAt d ((s.mmexchange (d.place 1) (d.place 0)).node d)
      ((s.mmexchange (d.place 1) (d.place 0)).count d) 1 := by
    rw [ho]
    constructor
    · intro j hj hjn hne
      by_cases hj1 : j = 1
      · subst hj1
        simpa [swapped] using hb.le
      · have hj0 : j ≠ 0 := by omega
        have hp : j / 2 ≠ 0 := by omega
        simpa [swapped, hj1, hj0, hne, hp] using hs j (by omega) hjn
    · intro c hc hcn
      have hd := hs c (by omega) hcn
      have hc0 : c ≠ 0 := by omega
      have hc1 : c ≠ 1 := by omega
      rw [hc] at hd
      simpa [swapped, hc0, hc1] using hd
  obtain ⟨hm', hr, hh⟩ := sortDown_spec (by decide) hdo
  have ha : s.raise d = (s.mmexchange (d.place 1) (d.place 0)).sortDown d 1 := by
    simp only [raise, mmCmpExch_of_before hb, ↓reduceIte, Nat.reduceDiv]
  rw [ha]
  refine ⟨hmo.trans hm', hh, hr.trans ?_⟩
  rw [ho]
  simp [swapped]

theorem raise_heaped : Moved d s (s.raise d) ∧ Heaped d ((s.raise d).node d) (s.count d) := by
  by_cases hb : d.Before (s.node d 1) (s.node d 0)
  · exact ⟨(raise_of_before hn hs hb).1, (raise_of_before hn hs hb).2.1⟩
  · rw [raise_of_not_before hb]
    exact ⟨Moved.refl d s, hs.heaped fun _ => Side.not_before.mp hb⟩

theorem raise_ordered (ht : Headless d.other (s.node d.other) (s.count d.other))
    (hp : 0 < s.count d.other → d.other.Le (s.node d 1) (s.node d.other 1))
    (hc : ¬ d.Before (s.node d 1) (s.node d 0) → Heaped d.other (s.node d.other) (s.count d.other)) :
    Moved d s (s.raise d) ∧ (s.raise d).Ordered := by
  obtain ⟨ho, hh⟩ := raise_heaped hn hs
  rw [← ho.count d] at hh
  refine ⟨ho, ordered_of_side d hh ?_⟩
  by_cases hb : d.Before (s.node d 1) (s.node d 0)
  · apply (ho.headless ht).heaped
    intro hpo
    rw [node_zero _ d.other d, (raise_of_before hn hs hb).2.2, ho.other 1 (by decide)]
    exact hp (ho.count d.other ▸ hpo)
  · rw [raise_of_not_before hb]
    exact hc hb

end

theorem settle_ordered (hp : 0 < i) (hi : i ≤ s.count d) (h : UpAt d (s.node d) (s.count d) i)
    (ht : Heaped d.other (s.node d.other) (s.count d.other)) : ((s.sortUp d i).1 = true → 0 < s.count d.other →
      Kept s ((s.sortUp d i).2.raise d.other) ∧ ((s.sortUp d i).2.raise d.other).Ordered) ∧
    (((s.sortUp d i).1 = true → s.count d.other = 0) → Kept s (s.sortUp d i).2 ∧ (s.sortUp d i).2.Ordered) := by
  obtain ⟨ho, hh, hs, hto⟩ := sortUp_spec hi h
  generalize s.sortUp d i = up at ho hh hs hto
  rw [← ho.count d] at hh
  constructor
  · intro htr hn
    have hd := ht 1 (by decide) hn
    have hr : Moved d.other up.2 (up.2.raise d.other) ∧ (up.2.raise d.other).Ordered := by
      apply raise_ordered (by rw [ho.count]; exact hn) (ho.headless ht.headless)
      · simpa using hh.headless
      · intro _
        simp only [Side.other_other]
        rw [ho.other 1 (by decide), hto hp htr, node_zero s d d.other]
        exact Side.le_other.mp hd
      · intro _
        simpa using hh
    exact ⟨ho.toKept.trans hr.1.toKept, hr.2⟩
  · intro hc
    refine ⟨ho.toKept, ordered_of_side d hh ?_⟩
    apply (ho.headless ht.headless).heaped
    intro hn
    rw [ho.count] at hn
    cases hu : up.1 with
    | true => exact absurd (hc hu) (by omega)
    | false =>
      rw [node_zero _ d.other d, hs hu, node_zero _ d d.other, ho.other 1 (by decide)]
      exact ht 1 (by decide) hn

def written (s : Rolling V) (v : V) : Rolling V :=
  { s.write v with
    minCt := ((s.write v).sz - 1) / 2
    maxCt := (s.write v).sz / 2 }

variable {v : V} {n : Nat}

theorem written_sz (s : Rolling V) (v : V) : (s.written v).sz = min (s.sz + 1) s.capacity := rfl

section
variable (h : s.Placed)
include h

theorem Placed.inUse_written {i : Int} (hi : (s.written v).InUse i) :
    s.InUse i ∨ s.sz < s.capacity ∧ i = fillPos s.sz := by
  have hmi := h.minCt_eq
  have ha := h.maxCt_eq
  simp only [InUse, written, write] at hi ⊢
  unfold fillPos
  split_ifs <;> omega

theorem Placed.written : (s.written v).Placed := by
  have hmi := h.minCt_eq
  have ha := h.maxCt_eq
  have hle := h.sz_le
  have hc := h.capacity_pos
  have hz : (s.written v).sz = min (s.sz + 1) s.capacity := rfl
  have hg : s.sz ≤ (s.written v).sz := by
    omega
  have hn : ∀ {i}, s.sz < s.capacity → i = fillPos s.sz → s.heap i = s.sz ∧ s.pos s.sz = i := by
    intro i hl hi
    have hp := h.waiting s.sz (Nat.le_refl _) hl
    exact ⟨hi ▸ hp ▸ h.heap_pos s.sz hl, hi ▸ hp⟩
  exact
    { capacity_pos := hc
      sz_le := Nat.min_le_right _ _
      minCt_eq := rfl
      maxCt_eq := rfl
      idx_lt := Nat.mod_lt _ hc
      idx_eq := by
        intro hl
        change min (s.sz + 1) s.capacity < s.capacity at hl
        change (s.idx + 1) % s.capacity = min (s.sz + 1) s.capacity
        have hl' : s.sz + 1 < s.capacity := by omega
        rw [h.idx_eq (by omega), Nat.mod_eq_of_lt hl', Nat.min_eq_left (Nat.le_of_lt hl')]
      heap_pos := h.heap_pos
      pos_inUse := by
        intro k hk
        change (s.written v).InUse (s.pos k)
        by_cases hold : k < s.sz
        · obtain ⟨hp, ho, hh⟩ := h.pos_inUse k hold
          simp only [InUse, Rolling.written, write]
          omega
        · have hl : s.sz < s.capacity := by omega
          have hs : k = s.sz := by omega
          rw [hs, h.waiting s.sz (Nat.le_refl _) hl]
          simp only [InUse, Rolling.written, write]
          unfold fillPos
          split_ifs <;> omega
      heap_lt := by
        intro i hi
        rcases h.inUse_written hi with hold | ⟨hl, hi⟩
        · exact Nat.lt_of_lt_of_le (h.heap_lt i hold) hg
        · change s.heap i < min (s.sz + 1) s.capacity
          rw [(hn hl hi).1]
          omega
      pos_heap := by
        intro i hi
        change s.pos (s.heap i) = i
        rcases h.inUse_written hi with hold | ⟨hl, hi⟩
        · exact h.pos_heap i hold
        · rw [(hn hl hi).1, (hn hl hi).2]
      waiting := fun k hk hc => h.waiting k (Nat.le_trans hg hk) hc }

theorem Placed.written_val {i : Int} (hi : (s.written v).InUse i) :
    (s.written v).val i = if i = s.pos s.idx then v else s.val i := by
  have hf : s.heap i = s.idx ↔ i = s.pos s.idx := by
    constructor
    · intro heq
      have hb : s.pos (s.heap i) = i := (h.written (v := v)).pos_heap i hi
      rw [← hb, heq]
    · intro heq
      rw [heq, h.heap_pos _ h.idx_lt]
  change Function.update s.data s.idx v (s.heap i) = _
  simp only [Function.update_apply, hf]
  rfl

theorem written_pos : 0 < (s.written v).sz := by
  have := h.capacity_pos
  rw [written_sz]
  omega

variable (hp : s.pos s.idx = d.place n)
include hp

theorem Placed.written_node (hj : j ≤ (s.written v).count d) :
    (s.written v).node d j = if j = n then v else s.node d j := by
  simp only [node, h.written_val (inUse_place (written_pos h) hj), hp, Side.place_inj]

theorem Placed.old_eq : s.data s.idx = s.node d n := by
  rw [node, val, ← hp, h.heap_pos _ h.idx_lt]

variable (hn : 0 < n)
include hn

theorem Placed.written_node_other (hj : j ≤ (s.written v).count d.other) : (s.written v).node d.other j = s.node d.other j := by
  have hne : d.other.place j ≠ d.place n := by
    cases d <;> simp only [Side.place, Side.other] <;> omega
  simp only [node, h.written_val (inUse_place (written_pos h) hj), hp, if_neg hne]

theorem Placed.written_count : (s.written v).count d.other = s.count d.other ∧ n ≤ (s.written v).count d ∧
      (s.sz < s.capacity ∧ (s.written v).count d = n ∧ s.count d + 1 = n ∨
        s.sz = s.capacity ∧ (s.written v).count d = s.count d) := by
  have hi := h.minCt_eq
  have ha := h.maxCt_eq
  have hle := h.sz_le
  by_cases hf : s.sz < s.capacity
  · rw [h.idx_eq hf, h.waiting s.sz (Nat.le_refl _) hf] at hp
    unfold fillPos at hp
    cases d <;> simp only [count, Rolling.written, write, Side.other, Side.place] at * <;> split_ifs at hp <;> omega
  · have hu := h.pos_inUse s.idx (by have := h.idx_lt; omega)
    cases d <;> simp only [InUse, count, Rolling.written, write, Side.other, Side.place] at * <;> omega

variable (ho : s.Ordered)
include ho

theorem Placed.written_heaped_other : Heaped d.other ((s.written v).node d.other) ((s.written v).count d.other) := by
  intro j hj hjn
  rw [h.written_node_other hp hn hjn, h.written_node_other hp hn (by omega)]
  exact ho d.other j hj ((h.written_count hp hn).1 ▸ hjn)

theorem Placed.written_upAt (hv : s.sz = s.capacity → d.Le v (s.data s.idx)) :
    UpAt d ((s.written v).node d) ((s.written v).count d) n := by
  obtain ⟨-, hle, hco⟩ := h.written_count (v := v) hp hn
  rw [h.old_eq hp] at hv
  constructor
  · intro j hj hjn hne
    rw [h.written_node hp hjn, h.written_node hp (by omega), if_neg hne]
    rcases hco with ⟨-, hnw, hco⟩ | ⟨hf, hs⟩
    · rw [if_neg (by omega)]
      exact ho d j hj (by omega)
    · have hd := ho d j hj (by omega)
      by_cases ha : j / 2 = n
      · rw [if_pos ha]
        exact (hv hf).trans (ha ▸ hd)
      · rw [if_neg ha]
        exact hd
  · intro c _ hc hcn
    rcases hco with ⟨-, hnw, -⟩ | ⟨-, hs⟩
    · omega
    · rw [h.written_node hp hcn, h.written_node hp (by omega), if_neg (by omega), if_neg (by omega)]
      have hd := ho d c (by omega) (by omega)
      rw [hc] at hd
      exact (ho d n hn (by omega)).trans hd

variable (hf : s.sz = s.capacity) (hv : d.Le (s.data s.idx) v)
include hf hv

theorem Placed.written_downAt : DownAt d ((s.written v).node d) ((s.written v).count d) n := by
  obtain ⟨-, hle, hco⟩ := h.written_count (v := v) hp hn
  rw [h.old_eq hp] at hv
  constructor
  · intro j hj hjn hne
    have hd := ho d j hj (by omega)
    rw [h.written_node hp hjn, h.written_node hp (by omega), if_neg hne]
    by_cases hj' : j = n
    · rw [hj'] at hd ⊢
      rw [if_pos rfl]
      exact hd.trans hv
    · rw [if_neg hj']
      exact hd
  · intro c hc hcn
    rw [h.written_node hp hcn, h.written_node hp (by omega), if_neg (by omega), if_neg (by omega)]
    have hd := ho d c (by omega) (by omega)
    rw [hc] at hd
    exact (ho d n hn (by omega)).trans hd

theorem sortDown_written : Kept (s.written v) ((s.written v).sortDown d n) ∧ ((s.written v).sortDown d n).Ordered := by
  obtain ⟨hmo, hr, hh⟩ := sortDown_spec hn (h.written_downAt hp hn ho hf hv)
  rw [← hmo.count d] at hh
  have ht := h.written_heaped_other (v := v) hp hn ho
  refine ⟨hmo.toKept, ordered_of_side d hh ?_⟩
  apply (hmo.headless ht.headless).heaped
  intro hpo
  rw [node_zero _ d.other d, hr, node_zero _ d d.other, hmo.other 1 (by decide)]
  exact ht 1 (by decide) (hmo.count d.other ▸ hpo)

end

theorem settleMin_eq (s : Rolling V) (p : Nat) : s.settleMin p =
    if (s.sortUp .min p).1 then (s.sortUp .min p).2.raise .max else (s.sortUp .min p).2 := rfl

theorem settleMax_eq (s : Rolling V) (p : Nat) : s.settleMax p =
    if (s.sortUp .max p).1 ∧ 0 < (s.sortUp .max p).2.minCt then (s.sortUp .max p).2.raise .min
    else (s.sortUp .max p).2 := rfl

theorem settleMin_written (h : s.Placed) (ho : s.Ordered) (hp : s.pos s.idx = Side.place .min n)
    (hn : 0 < n) (hv : s.sz = s.capacity → v ≤ s.data s.idx) :
    Kept (s.written v) ((s.written v).settleMin n) ∧ ((s.written v).settleMin n).Ordered := by
  obtain ⟨-, hle, -⟩ := h.written_count (v := v) hp hn
  have hu := h.written_upAt (v := v) hp hn ho hv
  obtain ⟨hr, hc⟩ := settle_ordered hn hle hu (h.written_heaped_other hp hn ho)
  -- the max-heap is filled first
  have ht : 0 < (s.written v).count .max := by
    have hi := (h.written (v := v)).minCt_eq
    have ha := (h.written (v := v)).maxCt_eq
    simp only [count] at *
    omega
  rw [settleMin_eq]
  by_cases hme : ((s.written v).sortUp .min n).1 = true
  · rw [if_pos hme]
    exact hr hme ht
  · rw [if_neg hme]
    exact hc fun htr => absurd htr hme

theorem settleMax_written (h : s.Placed) (ho : s.Ordered) (hp : s.pos s.idx = Side.place .max n)
    (hn : 0 < n) (hv : s.sz = s.capacity → s.data s.idx ≤ v) :
    Kept (s.written v) ((s.written v).settleMax n) ∧ ((s.written v).settleMax n).Ordered := by
  obtain ⟨-, hle, -⟩ := h.written_count (v := v) hp hn
  have hu := h.written_upAt (v := v) hp hn ho hv
  obtain ⟨hr, hc⟩ := settle_ordered hn hle hu (h.written_heaped_other hp hn ho)
  rw [settleMax_eq, (sortUp_spec hle hu).1.minCt]
  by_cases hme : ((s.written v).sortUp .max n).1 = true ∧ 0 < (s.written v).minCt
  · rw [if_pos hme]
    exact hr hme.1 hme.2
  · rw [if_neg hme]
    exact hc fun ht => Nat.eq_zero_of_not_pos fun hpo => hme ⟨ht, hpo⟩

theorem settleMedian_eq (s : Rolling V) (d : Side) : s.settleMedian d = if 0 < s.count d then s.raise d else s := by
  unfold settleMedian sortUp
  split_ifs
  · simp only [sortUpLoop, raise, Nat.zero_lt_one, ↓reduceIte, Nat.reduceDiv]
    by_cases hb : d.Before (s.node d 1) (s.node d (1 / 2))
    · simp only [mmCmpExch_of_before hb, ↓reduceIte, BEq.rfl]
    · simp only [mmCmpExch_of_not_before hb, Bool.false_eq_true, ↓reduceIte]
  · rfl

/-- In order but for the median, whose neighbours are in order. -/
structure Around (s : Rolling V) : Prop where
  headless : ∀ d, Headless d (s.node d) (s.count d)
  tops : 0 < s.minCt → 0 < s.maxCt → s.node .max 1 ≤ s.node .min 1

theorem Ordered.raise_eq (h : s.Ordered) (hn : 0 < s.count d) : s.raise d = s :=
  raise_of_not_before (Side.not_before.mpr (h d 1 (by decide) hn))

theorem settleMedian_ordered (h : s.Around) (hle : s.minCt ≤ s.maxCt) :
    Kept s ((s.settleMedian .max).settleMedian .min) ∧ ((s.settleMedian .max).settleMedian .min).Ordered := by
  simp only [settleMedian_eq]
  by_cases hn : 0 < s.count .max
  · rw [if_pos hn]
    by_cases hb : Side.Before .max (s.node .max 1) (s.node .max 0)
    · obtain ⟨hmo, ho⟩ := raise_ordered hn (h.headless .max) (h.headless .min)
        (fun hp => h.tops hp hn) (fun hnot => absurd hb hnot)
      by_cases hp : 0 < (s.raise .max).count .min
      · rw [if_pos hp, ho.raise_eq hp]
        exact ⟨hmo.toKept, ho⟩
      · rw [if_neg hp]
        exact ⟨hmo.toKept, ho⟩
    · have ha := (h.headless .max).heaped fun _ => Side.not_before.mp hb
      rw [raise_of_not_before hb]
      by_cases hp : 0 < s.count .min
      · rw [if_pos hp]
        obtain ⟨hmo, ho⟩ := raise_ordered hp (h.headless .min) (h.headless .max)
          (fun _ => h.tops hp hn) (fun _ => ha)
        exact ⟨hmo.toKept, ho⟩
      · rw [if_neg hp]
        exact ⟨Kept.refl s, ordered_of_side .max ha fun j hj hjn => by
          simp only [Side.other] at hjn; omega⟩
  · have hp : ¬ 0 < s.count .min := by
      simp only [count] at *
      omega
    rw [if_neg hn, if_neg hp]
    refine ⟨Kept.refl s, fun d j hj hjn => ?_⟩
    cases d <;> omega

theorem Placed.written_count_median (h : s.Placed) (hp : s.pos s.idx = 0) (d : Side) :
    (s.written v).count d = s.count d := by
  have hi := h.minCt_eq
  have ha := h.maxCt_eq
  have hle := h.sz_le
  by_cases hf : s.sz < s.capacity
  · rw [h.idx_eq hf, h.waiting s.sz (Nat.le_refl _) hf] at hp
    unfold fillPos at hp
    cases d <;> simp only [count, Rolling.written, write] <;> split_ifs at hp <;> omega
  · cases d <;> simp only [count, Rolling.written, write] <;> omega

theorem Placed.written_around (h : s.Placed) (ho : s.Ordered) (hp : s.pos s.idx = 0) : (s.written v).Around := by
  have hn : ∀ d j, 0 < j → j ≤ (s.written v).count d → (s.written v).node d j = s.node d j := by
    intro d j hj hjn
    rw [h.written_node (n := 0) (by rw [hp, Side.place_zero]) hjn, if_neg (by omega)]
  have hc := h.written_count_median (v := v) hp
  constructor
  · intro d j hj hjn
    rw [hn d j (by omega) hjn, hn d (j / 2) (by omega) (by omega)]
    exact ho d j (by omega) (hc d ▸ hjn)
  · intro hi ha
    have hm' : 1 ≤ s.count .min := hc .min ▸ hi
    have ha' : 1 ≤ s.count .max := hc .max ▸ ha
    rw [hn .max 1 (by decide) ha, hn .min 1 (by decide) hi]
    have hl : s.node .max 1 ≤ s.node .max 0 := ho .max 1 (by decide) ha'
    have hh : s.node .min 0 ≤ s.node .min 1 := ho .min 1 (by decide) hm'
    exact Std.IsPreorder.le_trans _ _ _ hl (node_zero s .max .min ▸ hh)

theorem eq_written {a b : Nat} (ha : a = ((s.write v).sz - 1) / 2) (hb : b = (s.write v).sz / 2) :
    { s.write v with minCt := a, maxCt := b } = s.written v := by
  subst ha hb
  rfl

theorem insert_kept (h : s.Placed) (ho : s.Ordered) : Kept (s.written v) (s.insert v) ∧ (s.insert v).Ordered := by
  have hi := h.minCt_eq
  have hma := h.maxCt_eq
  have hs : (s.write v).sz = min (s.sz + 1) s.capacity := rfl
  have hu : s.sz = s.capacity → s.write v = s.written v :=
    fun hu => eq_written (a := s.minCt) (b := s.maxCt) (by omega) (by omega)
  unfold insert
  by_cases hpo : 0 < s.pos s.idx
  · have hp : s.pos s.idx = Side.place .min (s.pos s.idx).natAbs := by
      simp only [Side.place]
      omega
    have hn : 0 < (s.pos s.idx).natAbs := by omega
    obtain ⟨ht, -, hco⟩ := h.written_count (v := v) hp hn
    simp only [if_pos hpo]
    simp only [count, Side.other, Rolling.written] at ht hco
    by_cases hf : s.minCt < (s.capacity - 1) / 2
    · have hw : { s.write v with minCt := s.minCt + 1 } = s.written v :=
        eq_written (b := s.maxCt) (by omega) (by omega)
      rw [if_pos hf, hw]
      exact settleMin_written h ho hp hn (by omega)
    · have hc : s.sz = s.capacity := by omega
      rw [if_neg hf, hu hc]
      by_cases hl : s.data s.idx < v
      · rw [if_pos hl]
        exact sortDown_written h hp hn ho hc (Std.le_of_lt hl)
      · rw [if_neg hl]
        exact settleMin_written h ho hp hn fun _ => Std.not_lt.mp hl
  · simp only [if_neg hpo]
    by_cases hg : s.pos s.idx < 0
    · have hp : s.pos s.idx = Side.place .max (s.pos s.idx).natAbs := by
        simp only [Side.place]
        omega
      have hn : 0 < (s.pos s.idx).natAbs := by omega
      obtain ⟨ht, -, hco⟩ := h.written_count (v := v) hp hn
      simp only [if_pos hg]
      simp only [count, Side.other, Rolling.written] at ht hco
      by_cases hf : s.maxCt < s.capacity / 2
      · have hw : { s.write v with maxCt := s.maxCt + 1 } = s.written v :=
          eq_written (a := s.minCt) (by omega) (by omega)
        rw [if_pos hf, hw]
        exact settleMax_written h ho hp hn (by omega)
      · have hc : s.sz = s.capacity := by omega
        rw [if_neg hf, hu hc]
        by_cases hl : v < s.data s.idx
        · rw [if_pos hl]
          exact sortDown_written h hp hn ho hc (Std.le_of_lt hl)
        · rw [if_neg hl]
          exact settleMax_written h ho hp hn fun _ => Std.not_lt.mp hl
    · have hp : s.pos s.idx = 0 := by omega
      have ha := h.written_around (v := v) ho hp
      have hw : s.write v = s.written v :=
        eq_written (a := s.minCt) (b := s.maxCt) (h.written_count_median (v := v) hp .min).symm
          (h.written_count_median (v := v) hp .max).symm
      have hm' := (h.written (v := v)).minCt_eq
      have ha' := (h.written (v := v)).maxCt_eq
      simp only [if_neg hg, hw]
      exact settleMedian_ordered ha (by omega)

structure Valid (s : Rolling V) : Prop where
  placed : s.Placed
  ordered : s.Ordered

theorem clear_valid (h : 0 < s.capacity) : s.clear.Valid where
  placed := clear_placed h
  ordered := by
    intro d j hj hn
    have hc : s.clear.count d = 0 := by cases d <;> rfl
    omega

theorem Valid.insert (h : s.Valid) : (s.insert v).Valid where
  placed := (insert_kept h.placed h.ordered).1.placed (written_pos h.placed) h.placed.written
  ordered := (insert_kept h.placed h.ordered).2

theorem Valid.insert_capacity (h : s.Valid) : (s.insert v).capacity = s.capacity :=
  (insert_kept h.placed h.ordered).1.capacity

theorem content_length (s : Rolling V) : s.content.length = s.sz := by
  simp [content]

theorem content_clear (s : Rolling V) : s.clear.content = [] := rfl

theorem rotate_update {data : Nat → V} {idx cap : Nat} (hi : idx < cap) :
    ((List.range cap).map (Function.update data idx v)).rotate ((idx + 1) % cap) =
      (((List.range cap).map data).rotate idx ++ [v]).drop 1 := by
  apply ext_getElem
  · simp
  · intro k hk _
    have hc : k < cap := by simpa using hk
    rw [getElem_rotate, getElem_drop]
    simp only [length_map, length_range, getElem_map, getElem_range, Nat.add_mod_mod, Function.update_apply]
    by_cases hl : k + 1 = cap
    · have ha : (k + (idx + 1)) % cap = idx := by
        rw [show k + (idx + 1) = idx + cap by omega, Nat.add_mod_right, Nat.mod_eq_of_lt hi]
      rw [if_pos ha, getElem_append_right (by simp; omega)]
      simp
    · have hn : (k + (idx + 1)) % cap ≠ idx := by
        by_cases hr : k + (idx + 1) < cap
        · rw [Nat.mod_eq_of_lt hr]
          omega
        · rw [Nat.mod_eq_sub_mod (by omega), Nat.mod_eq_of_lt (by omega)]
          omega
      rw [if_neg hn, getElem_append_left (by simp; omega), getElem_rotate]
      simp only [length_map, length_range, getElem_map, getElem_range]
      congr 2
      omega

theorem map_update (data : Nat → V) (k : Nat) :
    (List.range (k + 1)).map (Function.update data k v) = (List.range k).map data ++ [v] := by
  rw [range_succ, map_append]
  congr 1
  · apply map_congr_left
    intro j hj
    have hn : j ≠ k := Nat.ne_of_lt (mem_range.mp hj)
    simp [hn]
  · simp

theorem Valid.content_insert (h : s.Valid) : (s.insert v).content =
    (s.content ++ [v]).drop (s.sz + 1 - s.capacity) := by
  obtain ⟨hk, -⟩ := insert_kept (v := v) h.placed h.ordered
  have hi := h.placed.idx_lt
  have hle := h.placed.sz_le
  have hc : (s.insert v).content =
      ((List.range (min (s.sz + 1) s.capacity)).map (Function.update s.data s.idx v)).rotate
        ((s.idx + 1) % s.capacity) := by
    unfold content
    rw [hk.data, hk.sz, hk.idx]
    rfl
  rw [hc]
  by_cases hf : s.sz < s.capacity
  · have hold : s.content = (List.range s.sz).map s.data := by
      unfold content
      rw [h.placed.idx_eq hf]
      simpa using rotate_length ((List.range s.sz).map s.data)
    have hn : s.sz + 1 - s.capacity = 0 := by omega
    rw [Nat.min_eq_left (by omega), h.placed.idx_eq hf, map_update, hold, hn, drop_zero]
    by_cases hl : s.sz + 1 = s.capacity
    · rw [hl, Nat.mod_self, rotate_zero]
    · rw [Nat.mod_eq_of_lt (by omega)]
      simpa using rotate_length ((List.range s.sz).map s.data ++ [v])
  · have ha : s.sz = s.capacity := by omega
    have ho : s.sz + 1 - s.capacity = 1 := by omega
    rw [Nat.min_eq_right (by omega), rotate_update hi, ho, content, ha]

def sideValues (s : Rolling V) (d : Side) : List V :=
  (List.range (s.count d)).map fun i => s.node d (i + 1)

theorem mem_sideValues {x : V} : x ∈ s.sideValues d ↔ ∃ j, 0 < j ∧ j ≤ s.count d ∧ s.node d j = x := by
  simp only [sideValues, mem_map, mem_range]
  constructor
  · rintro ⟨j, hj, rfl⟩
    exact ⟨j + 1, by omega, hj, rfl⟩
  · rintro ⟨j, hp, hj, rfl⟩
    exact ⟨j - 1, by omega, by rw [Nat.sub_add_cancel hp]⟩

def positions (s : Rolling V) : List Int :=
  (List.range s.maxCt).map (fun i => Side.place .max (i + 1)) ++
    0 :: (List.range s.minCt).map fun i => Side.place .min (i + 1)

theorem mem_positions (hp : 0 < s.sz) {i : Int} : i ∈ s.positions ↔ s.InUse i := by
  simp only [positions, mem_append, mem_map, mem_range, mem_cons, InUse, Side.place]
  constructor
  · rintro (⟨j, hj, rfl⟩ | rfl | ⟨j, hj, rfl⟩) <;> omega
  · rintro ⟨-, hl, hh⟩
    by_cases hn : i < 0
    · exact Or.inl ⟨i.natAbs - 1, by omega, by omega⟩
    · by_cases hzero : i = 0
      · exact Or.inr (Or.inl hzero)
      · exact Or.inr (Or.inr ⟨i.natAbs - 1, by omega, by omega⟩)

theorem positions_nodup (s : Rolling V) : s.positions.Nodup := by
  have hinj : ∀ d : Side, Function.Injective fun i => d.place (i + 1) := by
    intro d i j heq
    exact Nat.succ_inj.mp (Side.place_inj.mp heq)
  simp only [positions, nodup_append, nodup_cons]
  refine ⟨nodup_range.map (hinj .max), ⟨?_, nodup_range.map (hinj .min)⟩, ?_⟩
  · simp only [mem_map, mem_range, Side.place]
    rintro ⟨j, -, hj⟩
    omega
  · intro i hi j hj
    simp only [mem_map, mem_range, mem_cons, Side.place] at hi hj
    obtain ⟨k, -, rfl⟩ := hi
    rcases hj with rfl | ⟨l, -, rfl⟩ <;> omega

theorem Placed.content_perm (h : s.Placed) (hp : 0 < s.sz) :
    s.content.Perm (s.sideValues .max ++ s.val 0 :: s.sideValues .min) := by
  have hn : (s.positions.map s.heap).Perm (List.range s.sz) := by
    apply (perm_ext_iff_of_nodup ?_ nodup_range).mpr
    · intro k
      simp only [mem_map, mem_positions hp, mem_range]
      constructor
      · rintro ⟨i, hi, rfl⟩
        exact h.heap_lt i hi
      · intro hk
        exact ⟨s.pos k, h.pos_inUse k hk, h.heap_pos k (Nat.lt_of_lt_of_le hk h.sz_le)⟩
    · apply s.positions_nodup.map_on
      intro i hi j hj heq
      exact h.heap_inj ((mem_positions hp).mp hi) ((mem_positions hp).mp hj) heq
  have hv : (s.positions.map s.heap).map s.data =
      s.sideValues .max ++ s.val 0 :: s.sideValues .min := by
    simp [positions, sideValues, count, node, val, Function.comp_def]
  rw [← hv]
  exact (rotate_perm _ _).trans (hn.map s.data).symm

theorem middle_of_split {ys lows hi : List V} {m : V} (hs : ys.Pairwise (· ≤ ·))
    (hp : ys.Perm (lows ++ m :: hi)) (hlw : ∀ x ∈ lows, x ≤ m) (hh : ∀ x ∈ hi, m ≤ x) : ys[lows.length]? = some m ∧
      ∀ top ∈ lows, (∀ x ∈ lows, x ≤ top) → ys[lows.length - 1]? = some top := by
  classical
  obtain ⟨sort, ho, ha⟩ : ∃ sort : List V → List V,
      (∀ l, (sort l).Pairwise (· ≤ ·)) ∧ ∀ l, (sort l).Perm l := by
    refine ⟨fun l => l.mergeSort fun a b => decide (a ≤ b), fun l => ?_, fun l => mergeSort_perm l _⟩
    have hr := @pairwise_mergeSort V (fun a b => decide (a ≤ b))
      (fun a b c hb hc => by
        simp only [decide_eq_true_eq] at *
        exact Std.IsPreorder.le_trans a b c hb hc)
      (fun a b => by simpa using Std.IsLinearPreorder.le_total a b) l
    simpa using hr
  have heq : ys = sort lows ++ m :: sort hi := by
    apply List.Perm.eq_of_pairwise (fun a b _ _ hb hba => Std.le_antisymm hb hba) hs
    · simp only [pairwise_append, pairwise_cons]
      refine ⟨ho lows, ⟨fun x hx => hh x ((ha hi).subset hx), ho hi⟩, ?_⟩
      intro x hx y hy
      have hxm := hlw x ((ha lows).subset hx)
      rcases mem_cons.mp hy with rfl | hy
      · exact hxm
      · exact Std.IsPreorder.le_trans _ _ _ hxm (hh y ((ha hi).subset hy))
    · exact hp.trans ((ha lows).symm.append ((ha hi).symm.cons m))
  have hlen : (sort lows).length = lows.length := (ha lows).length_eq
  constructor
  · rw [heq, ← hlen, List.getElem?_append_right (Nat.le_refl _), Nat.sub_self]
    rfl
  · intro top ht hma
    have hpo : 0 < lows.length := length_pos_of_mem ht
    have hl : lows.length - 1 < (sort lows).length := by omega
    rw [heq, List.getElem?_append_left hl, List.getElem?_eq_getElem hl]
    congr 1
    apply Std.le_antisymm
    · exact hma _ ((ha lows).subset (getElem_mem hl))
    · obtain ⟨k, hk, hkt⟩ := getElem_of_mem ((ha lows).symm.subset ht)
      by_cases hkl : k = lows.length - 1
      · subst hkl
        rw [hkt]
        exact Std.IsPreorder.le_refl top
      · rw [← hkt]
        exact pairwise_iff_getElem.mp (ho lows) k _ hk hl (by omega)

/-- The middle position holds the middle value; of an even number, the max-heap's top is the one
below. -/
theorem Valid.middle (h : s.Valid) (hp : 0 < s.sz) {ys : List V} (hs : ys.Pairwise (· ≤ ·)) (hpe : ys.Perm s.content) :
    ys[s.sz / 2]? = some (s.val 0) ∧ (s.minCt < s.maxCt → ys[s.sz / 2 - 1]? = some (s.val (-1))) := by
  have hl : ∀ x ∈ s.sideValues .max, x ≤ s.val 0 := by
    intro x hx
    obtain ⟨j, -, hj, rfl⟩ := mem_sideValues.mp hx
    exact (h.ordered .max).root_le hj
  have hh : ∀ x ∈ s.sideValues .min, s.val 0 ≤ x := by
    intro x hx
    obtain ⟨j, -, hj, rfl⟩ := mem_sideValues.mp hx
    exact (h.ordered .min).root_le hj
  obtain ⟨hd, hb⟩ := middle_of_split hs (hpe.trans (h.placed.content_perm hp)) hl hh
  have hlen : (s.sideValues .max).length = s.sz / 2 := by
    simp only [sideValues, length_map, length_range]
    exact h.placed.maxCt_eq
  rw [hlen] at hd hb
  refine ⟨hd, fun ht => hb (s.val (-1)) ?_ ?_⟩
  · exact mem_sideValues.mpr ⟨1, by decide, by simp only [count]; omega, rfl⟩
  · intro x hx
    obtain ⟨j, hj, hn, rfl⟩ := mem_sideValues.mp hx
    exact (h.ordered .max).top_le hj hn

end Rolling

/-! ## The last values of a list -/

def window {V : Type} (n : Nat) (xs : List V) : List V := xs.drop (xs.length - n)

variable {V : Type} {n : Nat} {xs : List V}

theorem window_length (n : Nat) (xs : List V) : (window n xs).length = min n xs.length := by
  simp only [window, length_drop]
  omega

theorem window_of_le (h : xs.length ≤ n) : window n xs = xs := by
  simp [window, Nat.sub_eq_zero_of_le h]

theorem window_concat (n : Nat) (xs : List V) (v : V) :
    window n (xs ++ [v]) = (window n xs ++ [v]).drop ((window n xs).length + 1 - n) := by
  rw [window_length]
  unfold window
  by_cases h : xs.length < n
  · have hn : xs.length - n = 0 := by omega
    have hn' : xs.length + 1 - n = 0 := by omega
    have hi : min n xs.length + 1 - n = 0 := by omega
    simp [hn, hn', hi]
  · have hle : xs.length - n ≤ xs.length := Nat.sub_le _ _
    rw [← drop_append_of_le_length hle, drop_drop, length_append, length_singleton]
    congr 1
    omega

structure Follows [LT V] [LE V] (s : Rolling V) (xs : List V) : Prop where
  valid : s.Valid
  content : s.content = window s.capacity xs

variable [LT V] [LE V] [DecidableLT V] [Std.IsLinearOrder V] [Std.LawfulOrderLT V]
variable {s : Rolling V}

theorem follows_clear (h : 0 < s.capacity) : Follows s.clear [] where
  valid := Rolling.clear_valid h
  content := by simp [Rolling.content_clear, window]

theorem Follows.sz_eq (h : Follows s xs) : s.sz = min s.capacity xs.length := by
  rw [← Rolling.content_length, h.content, window_length]

theorem Follows.insert (h : Follows s xs) (v : V) : Follows (s.insert v) (xs ++ [v]) where
  valid := h.valid.insert
  content := by
    have hs := window_length s.capacity xs
    rw [h.valid.content_insert, h.valid.insert_capacity, h.content, window_concat, hs, h.sz_eq]

theorem Follows.insertAll (h : Follows s xs) (vs : List V) : Follows (vs.foldl Rolling.insert s) (xs ++ vs) := by
  induction vs generalizing s xs with
  | nil => simpa using h
  | cons v vs ih => simpa using ih (h.insert v)

theorem insertAll_capacity (h : s.Valid) (vs : List V) : (vs.foldl Rolling.insert s).capacity = s.capacity := by
  induction vs generalizing s with
  | nil => rfl
  | cons v vs ih => exact (ih h.insert).trans h.insert_capacity

end RollingMedian
