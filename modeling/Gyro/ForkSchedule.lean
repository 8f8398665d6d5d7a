import Gyro.ForkState

/-!
# The scheduled forks

`Blockchain::init` passes the table of the network to `add_fork` and ignores the
results. All three tables list both forks at one height: the second is refused.
-/

namespace Gyro

open Runs List

def mainnetHardForks : List HardforkT := [⟨1, 1, 0, 1571677259⟩, ⟨12, 1, 0, 1571677260⟩]

def testnetHardForks : List HardforkT := [⟨1, 1, 0, 1571677259⟩, ⟨12, 1, 0, 1571677260⟩]

def stagenetHardForks : List HardforkT := [⟨1, 1, 0, 1571677259⟩, ⟨12, 1, 0, 1571677260⟩]

structure Scheduled (table : List HardforkT) : Prop where
  ordered : table.Pairwise HardforkT.Before
  nonzero : ∀ f ∈ table, f.version ≠ 0
  threshold : ∀ f ∈ table, f.threshold ≤ 100
  first : ∀ f ∈ table.head?, f.version = 1

def lastEntry (table : List HardforkT) (height : Nat) : Option HardforkT :=
  table.reverse.find? (·.height.toNat ≤ height)

section
variable {heights table : List HardforkT} {f : HardforkT}

theorem HardforkT.Before.trans {f g h : HardforkT} (hg : f.Before g) (hh : g.Before h) : f.Before h :=
  ⟨UInt8.lt_trans hg.1 hh.1, UInt64.lt_trans hg.2.1 hh.2.1, Int.lt_trans hg.2.2 hh.2.2⟩

theorem pairwise_concat_iff : (heights ++ [f]).Pairwise HardforkT.Before ↔
    heights.Pairwise HardforkT.Before ∧ ∀ last ∈ heights.getLast?, last.Before f := by
  rw [pairwise_append]
  constructor
  · rintro ⟨hh, _, ha⟩
    exact ⟨hh, fun last hl => ha last (List.mem_of_getLast? hl) f mem_cons_self⟩
  · rintro ⟨hh, hl⟩
    refine ⟨hh, pairwise_singleton _ _, ?_⟩
    intro g hg f' hf'
    rw [mem_singleton.mp hf']
    obtain ⟨last, hn⟩ := List.getLast?_isSome.mpr (ne_nil_of_mem hg) |> Option.isSome_iff_exists.mp
    have hs : heights.dropLast ++ [last] = heights := List.dropLast_append_getLast? last hn
    rw [← hs] at hg hh
    obtain hg | hg := mem_append.mp hg
    · have hb : g.Before last := (pairwise_append.mp hh).2.2 g hg last mem_cons_self
      exact hb.trans (hl last hn)
    · rw [mem_singleton.mp hg]
      exact hl last hn

theorem addFork_eq (heights : List HardforkT) (f : HardforkT) : addFork heights f =
    if f.version ≠ 0 ∧ (∀ last ∈ heights.getLast?, last.Before f) ∧ f.threshold ≤ 100
    then (heights ++ [f], true) else (heights, false) := by
  unfold addFork HardforkT.Before
  cases heights.getLast? with
  | none =>
    by_cases hzero : f.version = 0
    · simp [hzero]
    · by_cases ht : 100 < f.threshold
      · simp [hzero, ht, UInt8.not_le.mpr ht]
      · simp [hzero, ht, UInt8.not_lt.mp ht]
  | some last =>
    simp only [Option.mem_some, exists_eq_left', forall_eq', ← UInt8.not_lt, ← UInt64.not_lt, ← Int.not_lt]
    grind

theorem registerForks_spec (table : List HardforkT) : (registerForks table).Pairwise HardforkT.Before ∧
      ∀ f ∈ registerForks table, f.version ≠ 0 ∧ f.threshold ≤ 100 := by
  induction table using List.reverseRecOn with
  | nil => simp [registerForks]
  | append_singleton table f ih =>
    rw [registerForks, foldl_concat, addFork_eq]
    split
    next ht =>
      obtain ⟨hzero, hl, hh⟩ := ht
      refine ⟨pairwise_concat_iff.mpr ⟨ih.1, hl⟩, ?_⟩
      intro g hg
      obtain hg | hg := mem_append.mp hg
      · exact ih.2 g hg
      · rw [mem_singleton.mp hg]
        exact ⟨hzero, hh⟩
    next => exact ih

theorem registerForks_eq (ho : table.Pairwise HardforkT.Before) (hzero : ∀ f ∈ table, f.version ≠ 0)
    (ht : ∀ f ∈ table, f.threshold ≤ 100) : registerForks table = table := by
  induction table using List.reverseRecOn with
  | nil => rfl
  | append_singleton table f ih =>
    obtain ⟨hb, hl⟩ := pairwise_concat_iff.mp ho
    have htb := ih hb (fun g hg => hzero g (mem_append_left _ hg))
      (fun g hg => ht g (mem_append_left _ hg))
    rw [registerForks, foldl_concat, ← registerForks, htb, addFork_eq,
      if_pos ⟨hzero f (by simp), hl, ht f (by simp)⟩]

end

def HardFork.ofTable (table : List HardforkT) : HardFork where
  originalVersion := 1
  windowSize := 10080
  heights := if registerForks table = [] then [⟨1, 0, 0, 0⟩] else registerForks table
  window_pos := by decide
  ordered := by
    split
    · simp
    · exact (registerForks_spec table).1
  nonempty := by
    split
    · simp
    · assumption

/-! ## The version by height -/

namespace HardFork

section
variable {hf : HardFork} {st : VotingState} {t : ForkNode} {blocks : List Block} {height height' n : Nat}

/-- The version of the last fork at or below a height, from the second fork on. -/
def scheduledVersion (forks : List HardforkT) (height : Nat) : UInt8 :=
  match (forks.drop 1).reverse.find? (·.height.toNat ≤ height) with
  | some f => f.version
  | none => (forks.head?.map (·.version)).getD 0

theorem versionAt_scheduledIndex (hn : n < hf.heights.length) :
    hf.versionAt (hf.scheduledIndex height n) = scheduledVersion (hf.heights.take (n + 1)) height := by
  induction n with
  | zero =>
    cases hh : hf.heights with
    | nil => exact absurd hh hf.nonempty
    | cons f rest => simp [scheduledIndex, versionAt, scheduledVersion, hh]
  | succ n ih =>
    have hg : hf.heights[n + 1]? = some (hf.heights[n + 1]) := List.getElem?_eq_getElem hn
    have ht : (hf.heights.take (n + 1 + 1)).drop 1 =
        (hf.heights.take (n + 1)).drop 1 ++ [hf.heights[n + 1]] := by
      rw [take_add_one, hg, drop_append_of_le_length (by simp; omega)]
      rfl
    have hd : (hf.heights.take (n + 1 + 1)).head? = (hf.heights.take (n + 1)).head? := by
      simp [List.head?_take]
    unfold scheduledIndex scheduledVersion
    rw [ht, hd, hg]
    by_cases hle : (hf.heights[n + 1]).height.toNat ≤ height
    · simp [hle, versionAt, hg]
    · simpa [hle, scheduledVersion] using ih (by omega)

theorem scheduledIndex_mono (hle : height ≤ height') : hf.scheduledIndex height n ≤ hf.scheduledIndex height' n := by
  induction n with
  | zero => exact Nat.le_refl _
  | succ n ih =>
    have hbound := scheduledIndex_le hf height n
    unfold scheduledIndex
    split <;> split <;> omega

def Unvoted (hf : HardFork) : Prop := ∀ f ∈ hf.heights, f.threshold = 0

theorem Unvoted.votedFrom (h : hf.Unvoted) (hn : n < hf.heights.length) {votes : UInt32} :
    hf.votedFrom st height (n + 1) votes =
      if hf.scheduledIndex height n = 0 ∧ ∀ f ∈ hf.heights[0]?, height < f.height.toNat then st.currentForkIndex
      else hf.scheduledIndex height n := by
  have ht : ∀ f ∈ hf.heights, ((hf.windowSize * f.threshold.toUInt64 + 99) / 100).toUInt32 = 0 := by
    intro f hf'
    rw [h f hf', show (0 : UInt8).toUInt64 = 0 from rfl, UInt64.mul_zero]
    rfl
  induction n generalizing votes with
  | zero =>
    have hg : hf.heights[0]? = some (hf.heights[0]) := List.getElem?_eq_getElem hn
    unfold HardFork.votedFrom
    simp only [hg, ht _ (getElem_mem hn)]
    by_cases hle : (hf.heights[0]).height.toNat ≤ height
    · simp [hle, scheduledIndex, Nat.not_lt.mpr hle]
    · simp [hle, scheduledIndex, Nat.not_le.mp hle, HardFork.votedFrom]
  | succ n ih =>
    have hg : hf.heights[n + 1]? = some (hf.heights[n + 1]) := List.getElem?_eq_getElem hn
    unfold HardFork.votedFrom scheduledIndex
    simp only [hg, ht _ (getElem_mem hn)]
    by_cases hle : (hf.heights[n + 1]).height.toNat ≤ height
    · simp [hle]
    · simpa [hle] using ih (by omega)

theorem heights_length_le (hf : HardFork) : hf.heights.length ≤ 256 := by
  have hn : (hf.heights.map fun f => f.version.toNat).Nodup := by
    apply pairwise_map.mpr
    exact hf.ordered.imp fun hb => Nat.ne_of_lt (UInt8.lt_iff_toNat_lt.mp hb.1)
  have hs : hf.heights.map (fun f => f.version.toNat) ⊆ List.range 256 := by
    intro v hv
    obtain ⟨f, _, rfl⟩ := mem_map.mp hv
    exact mem_range.mpr f.version.toNat_lt
  simpa using (hn.subperm hs).length_le

theorem Unvoted.raiseForkIndex (h : hf.Unvoted)
    (hi : st.currentForkIndex = hf.scheduledIndex height (hf.heights.length - 1)) :
    (hf.raiseForkIndex st (height + 1)).currentForkIndex = hf.scheduledIndex (height + 1) (hf.heights.length - 1) := by
  have hl := hf.heights_length_le
  have ht := scheduledIndex_lt hf (height + 1)
  have ho : hf.scheduledIndex height (hf.heights.length - 1) ≤
      hf.scheduledIndex (height + 1) (hf.heights.length - 1) := scheduledIndex_mono (Nat.le_succ _)
  have hv := @Unvoted.votedFrom hf st (height + 1) (hf.heights.length - 1) h (by omega) 0
  rw [show hf.heights.length - 1 + 1 = hf.heights.length by omega] at hv
  unfold HardFork.raiseForkIndex getVotedForkIndex
  rw [hv]
  dsimp only
  split
  next hn =>
    rw [Nat.mod_eq_of_lt (by omega), if_neg (Nat.lt_irrefl _)]
    omega
  next =>
    rw [Nat.mod_eq_of_lt (by omega)]
    split
    · rfl
    · omega

theorem scheduledIndex_zero (hf : HardFork) (hn : n < hf.heights.length) : hf.scheduledIndex 0 n = 0 := by
  induction n with
  | zero => rfl
  | succ n ih =>
    have hb := (pairwise_iff_getElem.mp hf.ordered) 0 (n + 1) (by omega) hn (by omega)
    have hp : 0 < (hf.heights[n + 1]).height.toNat :=
      Nat.lt_of_le_of_lt (Nat.zero_le _) (UInt64.lt_iff_toNat_lt.mp hb.2.1)
    unfold scheduledIndex
    rw [List.getElem?_eq_getElem hn, Option.map_some, Option.getD_some, if_neg (by omega)]
    exact ih (by omega)

theorem Unvoted.index (h : hf.Unvoted) (ht : hf.Fresh blocks t) :
    t.st.currentForkIndex = hf.scheduledIndex blocks.length (hf.heights.length - 1) := by
  induction blocks using List.reverseRecOn generalizing t with
  | nil =>
    cases ht
    have hp := hf.heights_pos
    exact (scheduledIndex_zero hf (by omega)).symm
  | append_singleton blocks b ih =>
    obtain ⟨u, w, hu, hw, hn⟩ := run_split ht
    cases hn
    have hu' : hf.Fresh blocks u := hu
    obtain ⟨votes, hv, _, hi⟩ := hu'.windowed.countVote b (u.db.blocks.length + 1)
    rw [(addBlock_eq_some hw).2.1, hv, length_append, hu'.blocks_eq]
    apply h.raiseForkIndex
    rw [hi]
    exact ih hu'

theorem getIdealVersion_eq (h : ∀ f ∈ hf.heights.head?, f.version = hf.originalVersion) :
    hf.getIdealVersion height = scheduledVersion hf.heights height := by
  unfold getIdealVersion scheduledVersion
  cases hh : hf.heights with
  | nil => exact absurd hh hf.nonempty
  | cons first rest =>
    have hi := h first (by simp [hh])
    have hd : ((first :: rest).head?.map (·.version)).getD 0 = hf.originalVersion := hi
    cases (List.drop 1 (first :: rest)).reverse.find? (·.height.toNat ≤ height) with
    | some f => rfl
    | none => exact hd.symm

theorem Unvoted.currentVersion (h : hf.Unvoted) (ht : hf.Fresh blocks t) :
    hf.getCurrentVersion t.st = scheduledVersion hf.heights blocks.length := by
  have hp := hf.heights_pos
  rw [getCurrentVersion, h.index ht, versionAt_scheduledIndex (by omega), take_of_length_le (by omega)]

theorem Unvoted.forkVersion (h : hf.Unvoted) (ht : hf.Fresh blocks t) (hl : blocks.length < 2 ^ 64) :
    hf.getCurrentVersion t.st =
      Gyro.forkVersion (hf.heights.map fun f => ⟨f.version, f.height⟩) (UInt64.ofNat blocks.length) := by
  rw [h.currentVersion ht, scheduledVersion, Gyro.forkVersion, ← map_drop, ← map_reverse, List.find?_map]
  have hh : ∀ f : HardforkT, f.height ≤ UInt64.ofNat blocks.length ↔ f.height.toNat ≤ blocks.length := by
    intro f
    rw [UInt64.le_iff_toNat_le, UInt64.toNat_ofNat_of_lt' hl]
  simp only [Function.comp_def, hh]
  cases List.find? (fun f => decide (f.height.toNat ≤ blocks.length)) (hf.heights.drop 1).reverse with
  | none => simp [Function.comp_def]
  | some f => rfl

end

end HardFork

/-! ## The forks of a table -/

/-- Every fork is registered, and is in force from its height to the next if no fork needs votes. -/
structure TakesEffect (table : List HardforkT) : Prop where
  registered : registerForks table = table
  ideal : ∀ height f, lastEntry table height = some f →
    (HardFork.ofTable table).getIdealVersion height = f.version
  reached : (∀ f ∈ table, f.threshold = 0) → ∀ blocks t f, (HardFork.ofTable table).Fresh blocks t →
    lastEntry table blocks.length = some f → (HardFork.ofTable table).getCurrentVersion t.st = f.version

variable {table : List HardforkT}

theorem ofTable_heights (h : registerForks table = table) (hn : table ≠ []) :
    (HardFork.ofTable table).heights = table := by
  simp [HardFork.ofTable, h, hn]

theorem lastEntry_cons (first : HardforkT) (rest : List HardforkT) (height : Nat) :
    lastEntry (first :: rest) height = ((rest.reverse.find? (·.height.toNat ≤ height)).or
        (if first.height.toNat ≤ height then some first else none)) := by
  rw [lastEntry, reverse_cons, List.find?_append]
  by_cases hle : first.height.toNat ≤ height <;> simp [hle]

theorem scheduledVersion_of_lastEntry {height : Nat} {f : HardforkT}
    (h : lastEntry table height = some f) : HardFork.scheduledVersion table height = f.version := by
  cases table with
  | nil => cases h
  | cons first rest =>
    rw [lastEntry_cons] at h
    rw [HardFork.scheduledVersion, drop_one, tail_cons]
    cases hn : rest.reverse.find? (·.height.toNat ≤ height) with
    | some g => simp_all
    | none =>
      simp only [hn, Option.none_or] at h
      split at h
      · cases h
        rfl
      · cases h

/-- The scheduled forks take effect exactly for a table in order. -/
theorem forks_take_effect_iff (table : List HardforkT) : TakesEffect table ↔ Scheduled table := by
  constructor
  · intro h
    obtain ⟨ho, hfe⟩ := registerForks_spec table
    rw [h.registered] at ho hfe
    refine ⟨ho, fun f hf => (hfe f hf).1, fun f hf => (hfe f hf).2, ?_⟩
    intro first hi
    obtain ⟨rest, rfl⟩ : ∃ rest, table = first :: rest := List.head?_eq_some_iff.mp hi
    -- at its own height the first fork is the last one reached
    have hn : rest.reverse.find? (·.height.toNat ≤ first.height.toNat) = none := by
      apply List.find?_eq_none.mpr
      intro f hf hle
      have hb := (pairwise_cons.mp ho).1 f (mem_reverse.mp hf)
      have ht := UInt64.lt_iff_toNat_lt.mp hb.2.1
      simp at hle
      omega
    have hd := h.ideal first.height.toNat first (by simp [lastEntry_cons, hn])
    rw [HardFork.getIdealVersion, ofTable_heights h.registered (by simp), drop_one, tail_cons, hn] at hd
    exact hd.symm
  · intro h
    have hr := registerForks_eq h.ordered h.nonzero h.threshold
    have hh : ∀ height f, lastEntry table height = some f → (HardFork.ofTable table).heights = table := by
      intro height f hl
      apply ofTable_heights hr
      rintro rfl
      cases hl
    refine ⟨hr, ?_, ?_⟩
    · intro height f hl
      have hi : ∀ g ∈ table.head?, g.version = (HardFork.ofTable table).originalVersion := h.first
      rw [← hh height f hl] at hi
      rw [HardFork.getIdealVersion_eq hi, hh height f hl, scheduledVersion_of_lastEntry hl]
    · intro hzero blocks t f hfr hl
      have hu : (HardFork.ofTable table).Unvoted := by
        intro g hg
        rw [hh _ f hl] at hg
        exact hzero g hg
      rw [hu.currentVersion hfr, hh _ f hl, scheduledVersion_of_lastEntry hl]

/-- Version 12 is registered on no network: its height is not above that of version 1. -/
theorem second_fork_refused :
    ¬ ∀ table ∈ [mainnetHardForks, testnetHardForks, stagenetHardForks], TakesEffect table := by
  intro h
  have hr := (h mainnetHardForks mem_cons_self).registered
  exact absurd hr (by decide)

/-- The forks that the rules of the node are given. -/
example : Config.default.hardForks =
    (HardFork.ofTable mainnetHardForks).heights.map fun f => ⟨f.version, f.height⟩ := by decide

end Gyro
