import Gyro.Accept
import Gyro.Reorganize

/-!
# Enforcing checkpoints

`check_against_checkpoints` compares the chain with the checkpoints, the lowest first,
and at a failed one rolls back to two blocks before it, with the height it read at
the start.
-/

namespace Gyro

open Runs List

/-- The checkpoints in a `std::map`: by height, one for each. -/
structure Checkpoints where
  points : List (UInt64 × Hash)
  sorted : points.Pairwise fun p q => p.1 < q.1

namespace Checkpoints

def checkBlock (c : Checkpoints) (height : UInt64) (h : Hash) : Bool :=
  match c.points.find? (·.1 = height) with
  | none => true
  | some p => p.2 = h

end Checkpoints

section
variable (env : Env) (fuel : Nat) (now : UInt64)

def checkPoints (c : Checkpoints) (enforce : Bool) (blockchainHeight : UInt64) :
    List (UInt64 × Hash) → Blockchain → Except (Fault × Blockchain) Blockchain
  | [], st => .ok st
  | pt :: pts, st =>
    if blockchainHeight ≤ pt.1 then checkPoints c enforce blockchainHeight pts st
    else
      match st.db.getBlockHashFromHeight pt.1 with
      | none => .error (.dbError, st)
      | some h =>
        if c.checkBlock pt.1 h then checkPoints c enforce blockchainHeight pts st
        else if enforce then
          match rollbackBlockchainSwitching env fuel now st [] (pt.1 - 2) with
          | .error e => .error e
          | .ok st => checkPoints c enforce blockchainHeight pts st
        else checkPoints c enforce blockchainHeight pts st

def checkAgainstCheckpoints (st : Blockchain) (c : Checkpoints) (enforce : Bool) :
    Except (Fault × Blockchain) Blockchain :=
  checkPoints env fuel now c enforce st.db.height c.points st

end

section
variable {env : Env} {fuel : Nat} {now : UInt64} {st st' : Blockchain} {c : Checkpoints}
  {p q : UInt64 × Hash} {pre post : List (UInt64 × Hash)} {height : UInt64} {n : Nat}

theorem popBlock_eq (h : 1 < st.db.entries.length) : ∃ st' b, popBlockFromBlockchain st = .ok (st', b) ∧
    st'.db.entries = st.db.entries.dropLast := by
  have hh : ¬ st.db.height ≤ 1 := by
    rw [UInt64.le_iff_toNat_le, Db.height_toNat]
    change ¬ _ ≤ 1
    omega
  cases hl : st.db.entries.getLast? with
  | none => simp_all
  | some e => simp [popBlockFromBlockchain, hh, Db.removeBlock, hl]

theorem popUntil_height (hps : 0 < height.toNat) (hle : height.toNat ≤ st.db.entries.length)
    (hn : st.db.entries.length - height.toNat ≤ n) {popped : List Block} :
    ∃ st' old, popUntil (fun db => db.height = height) n st popped = .ok (st', old) ∧
      st'.db.entries = st.db.entries.take height.toNat := by
  have hs : st.db.height = height ↔ st.db.entries.length = height.toNat := by
    rw [← UInt64.toNat_inj, Db.height_toNat]
  induction n generalizing st popped with
  | zero =>
    have hen : st.db.entries.length = height.toNat := by omega
    exact ⟨st, popped, by simp [popUntil, hs, hen], by simp [← hen]⟩
  | succ n ih =>
    by_cases hen : st.db.entries.length = height.toNat
    · exact ⟨st, popped, by simp [popUntil, hs, hen], by simp [← hen]⟩
    · obtain ⟨st', b, hp, ht⟩ := @popBlock_eq st (by omega)
      have hl : st'.db.entries.length = st.db.entries.length - 1 := by
        rw [ht, length_dropLast]
      obtain ⟨st'', old, hr, ha⟩ := @ih st' (by omega) (by omega) (b :: popped)
        (by rw [← UInt64.toNat_inj, Db.height_toNat])
      refine ⟨st'', old, by simp [popUntil, hs, hen, hp, hr], ?_⟩
      rw [ha, ht, dropLast_eq_take, take_take]
      congr 1
      omega

theorem popUntil_zero (hn : 0 < st.db.entries.length) {popped : List Block} :
    ∃ e, popUntil (fun db => db.height = 0) n st popped = .error e := by
  have hs : ¬ st.db.height = 0 := by
    rw [← UInt64.toNat_inj, Db.height_toNat]
    exact Nat.ne_of_gt hn
  induction n generalizing st popped with
  | zero => exact ⟨(.outOfFuel, st), by simp [popUntil, hs]⟩
  | succ n ih =>
    by_cases ho : 1 < st.db.entries.length
    · obtain ⟨st', b, hp, ht⟩ := popBlock_eq ho
      have hl : 0 < st'.db.entries.length := by
        rw [ht, length_dropLast]
        omega
      obtain ⟨e, he⟩ := @ih st' hl (b :: popped)
        (by rw [← UInt64.toNat_inj, Db.height_toNat]; exact Nat.ne_of_gt hl)
      exact ⟨e, by simp [popUntil, hs, hp, he]⟩
    · have hh : st.db.height ≤ 1 := by
        rw [UInt64.le_iff_toNat_le, Db.height_toNat]
        change _ ≤ 1
        omega
      exact ⟨(.dbError, st), by simp [popUntil, hs, popBlockFromBlockchain, hh]⟩

theorem rollback_to (hp : 0 < height.toNat) (hle : height.toNat ≤ st.db.entries.length) :
    ∃ st', rollbackBlockchainSwitching env fuel now st [] height = .ok st' ∧
      st'.db.entries = st.db.entries.take height.toNat := by
  obtain ⟨st', old, hpp, ht⟩ := @popUntil_height st height st.db.entries.length hp hle (Nat.sub_le _ _) []
  have hh : ¬ st.db.height < height := by
    rw [UInt64.lt_iff_toNat_lt, Db.height_toNat]
    omega
  exact ⟨st', by simp [rollbackBlockchainSwitching, hh, hpp, connect], ht⟩

theorem rollback_zero (hp : 0 < st.db.entries.length) :
    ∃ e, rollbackBlockchainSwitching env fuel now st [] 0 = .error e := by
  obtain ⟨e, he⟩ := @popUntil_zero st st.db.entries.length hp []
  exact ⟨e, by simp [rollbackBlockchainSwitching, he]⟩

theorem rollback_one : rollbackBlockchainSwitching env fuel now st [] (1 - 2) = .ok st := by
  have hh : st.db.height < 1 - 2 := by
    rw [UInt64.lt_iff_toNat_lt, Db.height_toNat]
    exact Nat.lt_trans st.db.bounded (by decide)
  exact if_pos hh

def Fails (db : Db) (p : UInt64 × Hash) : Prop :=
  p.1.toNat < db.entries.length ∧ db.getBlockHashFromHeight p.1 ≠ some p.2

theorem exists_blockHash {db : Db} (h : height.toNat < db.entries.length) :
    ∃ x, db.getBlockHashFromHeight height = some x := by
  simp [Db.getBlockHashFromHeight, Db.entryAt, List.getElem?_eq_getElem h]

theorem Checkpoints.eq_of_height (c : Checkpoints) (hp : p ∈ c.points) (hq : q ∈ c.points) (h : p.1 = q.1) : p = q := by
  have hn : (c.points.map Prod.fst).Nodup :=
    pairwise_map.mpr (c.sorted.imp fun hl => UInt64.ne_of_lt hl)
  exact inj_on_of_nodup_map hn hp hq h

theorem Checkpoints.checkBlock_eq (c : Checkpoints) (hp : p ∈ c.points) (h : Hash) :
    c.checkBlock p.1 h = decide (p.2 = h) := by
  cases hf : c.points.find? (·.1 = p.1) with
  | none => exact absurd (List.find?_eq_none.mp hf p hp) (by simp)
  | some q =>
    have hh : q.1 = p.1 := by simpa using List.find?_some hf
    obtain rfl := c.eq_of_height (List.mem_of_find?_eq_some hf) hp hh
    simp [checkBlock, hf]

theorem checkPoints_skip (hr : ∀ p ∈ pre, p ∈ c.points) (hs : ∀ p ∈ pre, ¬ Fails st.db p ∨ p.1 = 1) :
    checkPoints env fuel now c true st.db.height (pre ++ post) st =
      checkPoints env fuel now c true st.db.height post st := by
  induction pre with
  | nil => rfl
  | cons p pre ih =>
    have hre := ih (fun q hq => hr q (mem_cons_of_mem _ hq))
      (fun q hq => hs q (mem_cons_of_mem _ hq))
    rw [cons_append, checkPoints, hre]
    by_cases hb : st.db.height ≤ p.1
    · rw [if_pos hb]
    · have hl : p.1.toNat < st.db.entries.length := by
        rw [UInt64.le_iff_toNat_le, Db.height_toNat] at hb
        omega
      obtain ⟨x, hx⟩ := exists_blockHash hl
      simp only [hb, if_false, hx, c.checkBlock_eq (hr p mem_cons_self)]
      by_cases hp : p.2 = x
      · simp [hp]
      · obtain ho | hn := hs p mem_cons_self
        · exact absurd ⟨hl, by simpa [hx] using Ne.symm hp⟩ ho
        · simp only [hp, decide_false, if_true, Bool.false_eq_true, if_false, hn, rollback_one]
          exact hre

theorem checkPoints_beyond {H : UInt64} (hp : ∀ p ∈ post, H ≤ p.1) :
    checkPoints env fuel now c true H post st = .ok st := by
  induction post with
  | nil => rfl
  | cons p post ih =>
    rw [checkPoints, if_pos (hp p mem_cons_self)]
    exact ih fun q hq => hp q (mem_cons_of_mem _ hq)

theorem checkPoints_missing {H : UInt64} (hi : ∀ p ∈ post, st.db.entries.length ≤ p.1.toNat)
    (hp : p ∈ post) (hl : p.1 < H) : ∃ e, checkPoints env fuel now c true H post st = .error e := by
  induction post with
  | nil => cases hp
  | cons q post ih =>
    rw [checkPoints]
    by_cases hb : H ≤ q.1
    · obtain rfl | hp := mem_cons.mp hp
      · exact absurd hl (UInt64.not_lt.mpr hb)
      · rw [if_pos hb]
        exact ih (fun r hr => hi r (mem_cons_of_mem _ hr)) hp
    · have hn : st.db.getBlockHashFromHeight q.1 = none := by
        simp [Db.getBlockHashFromHeight, Db.entryAt, hi q mem_cons_self]
      exact ⟨(.dbError, st), by simp [hb, hn]⟩

/-! ## The chain afterwards -/

/-- The genesis block stays, no stored block differs from a checkpoint, and what is more than two
below every failed one is untouched. -/
structure Enforced (c : Checkpoints) (st st' : Blockchain) : Prop where
  genesis : st'.db.entries.head? = st.db.entries.head?
  conforms : ∀ p ∈ c.points, ¬ Fails st'.db p
  untouched : ∀ i, (∀ p ∈ c.points, Fails st.db p → i + 2 < p.1.toNat) →
    st'.db.entries[i]? = st.db.entries[i]?

/-- No checkpoint fails; or the lowest that fails is at height 3 or above and none lies between it
and the end of the chain. One at height 1 does no harm before one at height 3. -/
def Enforceable (c : Checkpoints) (st : Blockchain) : Prop :=
  (∀ p ∈ c.points, ¬ Fails st.db p) ∨
    ∃ q ∈ c.points, Fails st.db q ∧ 3 ≤ q.1.toNat ∧
      (∀ p ∈ c.points, q.1 < p.1 → st.db.height ≤ p.1) ∧
      ∀ p ∈ c.points, Fails st.db p → p = q ∨ p.1 = 1 ∧ q.1 = 3

theorem Enforceable.at_failed (h : Enforceable c st) (hme : q ∈ c.points) (hq : Fails st.db q) (hn : q.1 ≠ 1) :
    3 ≤ q.1.toNat ∧ (∀ p ∈ c.points, q.1 < p.1 → st.db.height ≤ p.1) ∧
      ∀ p ∈ c.points, Fails st.db p → p = q ∨ p.1 = 1 ∧ q.1 = 3 := by
  obtain hno | ⟨q', hq', _, ht, hb, ho⟩ := h
  · exact absurd hq (hno q hme)
  · obtain rfl | ⟨ho', _⟩ := ho q hme hq
    · exact ⟨ht, hb, ho⟩
    · exact absurd ho' hn

theorem getBlockHash_take {db db' : Db} (h : db'.entries = db.entries.take n) (hl : height.toNat < n) :
    db'.getBlockHashFromHeight height = db.getBlockHashFromHeight height := by
  simp [Db.getBlockHashFromHeight, Db.entryAt, h, List.getElem?_take_of_lt hl]

theorem fails_take {db db' : Db} (h : db'.entries = db.entries.take n) : Fails db' p ↔ p.1.toNat < n ∧ Fails db p := by
  unfold Fails
  rw [h]
  by_cases hl : p.1.toNat < n
  · simp [getBlockHash_take h hl, hl]
  · simp [hl]

theorem split_at_failed (db : Db) (points : List (UInt64 × Hash)) : (∀ p ∈ points, ¬ Fails db p ∨ p.1 = 1) ∨
      ∃ pre q post, points = pre ++ q :: post ∧ (∀ p ∈ pre, ¬ Fails db p ∨ p.1 = 1) ∧ Fails db q ∧ q.1 ≠ 1 := by
  induction points with
  | nil => exact .inl (by simp)
  | cons p points ih =>
    by_cases hp : ¬ Fails db p ∨ p.1 = 1
    · obtain ha | ⟨pre, q, post, rfl, hr, hq⟩ := ih
      · exact .inl (forall_mem_cons.mpr ⟨hp, ha⟩)
      · exact .inr ⟨p :: pre, q, post, rfl, forall_mem_cons.mpr ⟨hp, hr⟩, hq⟩
    · rw [not_or, not_not] at hp
      exact .inr ⟨[], p, points, rfl, by simp, hp⟩

theorem enforced_iff_of_none (hs : ∀ p ∈ c.points, ¬ Fails st.db p ∨ p.1 = 1) :
    Enforced c st st ↔ Enforceable c st := by
  constructor
  · intro h
    exact .inl h.conforms
  · rintro (hn | ⟨q, hq, hf, ht, _⟩)
    · exact ⟨rfl, hn, fun _ _ => rfl⟩
    · obtain ho | hon := hs q hq
      · exact absurd hf ho
      · rw [hon] at ht
        exact absurd ht (by decide)

theorem enforced_iff_of_rollback (hpi : c.points = pre ++ q :: post)
    (hsk : ∀ p ∈ pre, ¬ Fails st.db p ∨ p.1 = 1) (hq : Fails st.db q) (hh : 3 ≤ q.1.toNat)
    (hpo : ∀ p ∈ post, st.db.height ≤ p.1) (ht : st'.db.entries = st.db.entries.take (q.1.toNat - 2)) :
    Enforced c st st' ↔ Enforceable c st := by
  have hme : q ∈ c.points := by simp [hpi]
  have hb : ∀ p ∈ post, ¬ Fails st.db p := by
    intro p hp hf
    have hle := hpo p hp
    rw [UInt64.le_iff_toNat_le, Db.height_toNat] at hle
    exact absurd hf.1 (by omega)
  have hs := c.sorted
  rw [hpi, pairwise_append] at hs
  obtain ⟨_, _, hbf⟩ := hs
  constructor
  · intro h
    refine .inr ⟨q, hme, hq, hh, ?_, ?_⟩
    · intro p hp hlt
      rw [hpi, mem_append, mem_cons] at hp
      obtain hp | rfl | hp := hp
      · exact absurd (UInt64.lt_trans hlt (hbf p hp q mem_cons_self)) (UInt64.lt_irrefl _)
      · exact absurd hlt (UInt64.lt_irrefl _)
      · exact hpo p hp
    · intro p hp hf
      have hk := h.conforms p hp
      rw [fails_take ht] at hk
      rw [hpi, mem_append, mem_cons] at hp
      obtain hp | rfl | hp := hp
      · obtain hok | ho := hsk p hp
        · exact absurd hf hok
        · have hl : ¬ p.1.toNat < q.1.toNat - 2 := fun hlt => hk ⟨hlt, hf⟩
          rw [ho, show (1 : UInt64).toNat = 1 from rfl] at hl
          have hhe : q.1.toNat = 3 := by omega
          exact .inr ⟨ho, UInt64.toNat_inj.mp hhe⟩
      · exact .inl rfl
      · exact absurd hf (hb p hp)
  · intro h
    have ho : q.1 ≠ 1 := by
      intro ho
      rw [ho] at hh
      exact absurd hh (by decide)
    obtain ⟨_, _, hot⟩ := h.at_failed hme hq ho
    refine ⟨?_, ?_, ?_⟩
    · rw [ht, List.head?_take, if_neg (by omega)]
    · intro p hp hf
      obtain ⟨hl, hf⟩ := (fails_take ht).mp hf
      obtain rfl | ⟨ho, hqt⟩ := hot p hp hf
      · omega
      · rw [ho, hqt] at hl
        exact absurd hl (by decide)
    · intro i hi
      have hl := hi q hme hq
      rw [ht, List.getElem?_take_of_lt (by omega)]

/-- Enforcing the checkpoints ends in a conforming chain in these cases only. -/
theorem checkpoints_enforced_iff (hgenesis : ∀ p ∈ c.points, p.1 = 0 → ¬ Fails st.db p) :
    (∃ st', checkAgainstCheckpoints env fuel now st c true = .ok st' ∧ Enforced c st st') ↔
      Enforceable c st := by
  unfold checkAgainstCheckpoints
  obtain hs | ⟨pre, q, post, hi, hs, hq, hn⟩ := split_at_failed st.db c.points
  · have hl := @checkPoints_skip env fuel now st c c.points [] (fun _ hp => hp) hs
    rw [append_nil] at hl
    rw [hl, ← enforced_iff_of_none hs]
    simp [checkPoints]
  · have hme : q ∈ c.points := by simp [hi]
    have hl := @checkPoints_skip env fuel now st c pre (q :: post) (fun p hp => by simp [hi, hp]) hs
    obtain ⟨x, hx⟩ := exists_blockHash hq.1
    have hb : ¬ st.db.height ≤ q.1 := by
      rw [UInt64.le_iff_toNat_le, Db.height_toNat]
      have := hq.1
      omega
    have hf : ¬ q.2 = x := fun heq => hq.2 (by rw [hx, heq])
    rw [hi, hl, checkPoints, if_neg hb]
    simp only [hx, c.checkBlock_eq hme, hf, decide_false, Bool.false_eq_true, if_false, if_true]
    have htw : 2 ≤ q.1.toNat := by
      have hzero : q.1.toNat ≠ 0 := fun h => hgenesis q hme (UInt64.toNat_inj.mp h) hq
      have ho' : q.1.toNat ≠ 1 := fun h => hn (UInt64.toNat_inj.mp h)
      omega
    have htr : (q.1 - 2).toNat = q.1.toNat - 2 :=
      UInt64.toNat_sub_of_le _ _ (UInt64.le_iff_toNat_le.mpr htw)
    have hhe := hq.1
    by_cases hh : 3 ≤ q.1.toNat
    · obtain ⟨st', hro, ht⟩ := @rollback_to env fuel now st (q.1 - 2) (by omega) (by omega)
      rw [htr] at ht
      simp only [hro]
      by_cases ho : ∀ p ∈ post, st.db.height ≤ p.1
      · rw [checkPoints_beyond ho, ← enforced_iff_of_rollback hi hs hq hh ho ht]
        simp
      · push Not at ho
        obtain ⟨p, hp, hlt⟩ := ho
        have hso := c.sorted
        rw [hi, pairwise_append, pairwise_cons] at hso
        have ha := hso.2.1.1
        have hmi : ∀ r ∈ post, st'.db.entries.length ≤ r.1.toNat := by
          intro r hr
          have hqr := UInt64.lt_iff_toNat_lt.mp (ha r hr)
          rw [ht, length_take]
          omega
        obtain ⟨e, he⟩ := @checkPoints_missing env fuel now st' c p post st.db.height hmi hp
          (UInt64.not_le.mp hlt)
        constructor
        · rintro ⟨_, hk, _⟩
          rw [he] at hk
          cases hk
        · intro h
          have hle := (h.at_failed hme hq hn).2.1 p (by simp [hi, hp]) (ha p hp)
          exact absurd hle hlt
    · have hzero : q.1 - 2 = 0 := by
        apply UInt64.toNat_inj.mp
        change _ = 0
        omega
      obtain ⟨e, he⟩ := @rollback_zero env fuel now st (by omega)
      rw [hzero, he]
      constructor
      · rintro ⟨_, hk, _⟩
        cases hk
      · intro h
        exact absurd (h.at_failed hme hq hn).1 hh

end

/-! ## Failed checkpoints of the small network -/

namespace Sample

def wrongAt (heights : List UInt64) (h : heights.Pairwise (· < ·)) : Checkpoints where
  points := heights.map fun n => (n, 77)
  sorted := List.pairwise_map.mpr h

theorem start_chain : ∃ s, run (Blockchain.accept (env config) 2) node (startArrivals config) = some s ∧
      s.db.entries.length = 9 ∧ s.db.getBlockHashFromHeight 5 = some (blockId 5) ∧
      (checkAgainstCheckpoints (env config) 2 1000000 s (wrongAt [5, 7] (by decide)) true).toOption.isNone := by
  have hv : ((run (Blockchain.accept (env config) 2) node (startArrivals config)).map fun s =>
      decide (s.db.entries.length = 9 ∧ s.db.getBlockHashFromHeight 5 = some (blockId 5) ∧
        (checkAgainstCheckpoints (env config) 2 1000000 s (wrongAt [5, 7] (by decide)) true).toOption.isNone)) =
      some true := by
    decide +kernel
  obtain ⟨s, hs, hf⟩ := Option.map_eq_some_iff.mp hv
  exact ⟨s, hs, of_decide_eq_true hf⟩

end Sample

open Sample in
theorem checkpoints_enforced_at_five :
    ∃ s s', run (Blockchain.accept (env config) 2) node (startArrivals config) = some s ∧
      checkAgainstCheckpoints (env config) 2 1000000 s (wrongAt [5] (by decide)) true = .ok s' ∧
      Enforced (wrongAt [5] (by decide)) s s' := by
  obtain ⟨s, hs, hln, hh, _⟩ := start_chain
  have hf : Fails s.db (5, 77) := ⟨by rw [hln]; decide, by rw [hh]; decide⟩
  have hn : ∀ p ∈ (wrongAt [5] (by decide)).points, p = (5, 77) := by simp [wrongAt]
  have hg : ∀ p ∈ (wrongAt [5] (by decide)).points, p.1 = 0 → ¬ Fails s.db p := by
    intro p hp hzero
    rw [hn p hp] at hzero
    exact absurd hzero (by decide)
  have hef : Enforceable (wrongAt [5] (by decide)) s := by
    refine .inr ⟨(5, 77), by simp [wrongAt], hf, by decide, ?_, ?_⟩
    · intro p hp hl
      rw [hn p hp] at hl
      exact absurd hl (by decide)
    · intro p hp _
      exact .inl (hn p hp)
  obtain ⟨s', hs', ho⟩ :=
    (@checkpoints_enforced_iff (env config) 2 1000000 s (wrongAt [5] (by decide)) hg).mpr hef
  exact ⟨s, s', hs, hs', ho⟩

open Sample in
/-- With wrong blocks at heights 5 and 7, the second is looked up after the rollback. -/
theorem second_failed_checkpoint_throws :
    ¬ ∀ (env : Env) (fuel : Nat) (now : UInt64) (st : Blockchain) (c : Checkpoints),
      (∀ p ∈ c.points, p.1 = 0 → ¬ Fails st.db p) →
      ∃ st', checkAgainstCheckpoints env fuel now st c true = .ok st' ∧ Enforced c st st' := by
  intro h
  obtain ⟨s, _, _, _, hn⟩ := start_chain
  have hg : ∀ p ∈ (wrongAt [5, 7] (by decide)).points, p.1 = 0 → ¬ Fails s.db p := by
    intro p hp hzero
    simp only [wrongAt, map_cons, map_nil, mem_cons, not_mem_nil, or_false] at hp
    obtain rfl | rfl := hp
    · exact absurd hzero (by decide)
    · exact absurd hzero (by decide)
  obtain ⟨s', ho, _⟩ := h (env config) 2 1000000 s _ hg
  rw [ho] at hn
  cases hn

end Gyro
