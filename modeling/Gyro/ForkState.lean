import Gyro.Accept
import Gyro.HardFork

/-!
# The voting state as a function of the chain

Adding the blocks of a chain one by one gives the votes of the newest blocks.
`init` and `reorganize_from_chain_height` rebuild that state, `on_block_popped` does
not: it brings stored versions back in place of votes.
-/

namespace Gyro

open Runs Tally List

variable {α : Type}

theorem rtake_rtake (xs : List α) {m n : Nat} (h : m ≤ n) : (xs.rtake n).rtake m = xs.rtake m := by
  simp only [List.rtake, drop_drop, length_drop]
  congr 1
  omega

theorem length_rtake (xs : List α) (n : Nat) : (xs.rtake n).length = min n xs.length := by
  simp only [List.rtake, length_drop]
  omega

theorem getElem?_rtake (xs : List α) (n i : Nat) : (xs.rtake n)[i]? = xs[xs.length - n + i]? := by
  simp only [List.rtake, List.getElem?_drop]

theorem rtake_take (xs : List α) {k n : Nat} (hk : k ≤ xs.length) :
    (xs.take k).rtake n = (xs.drop (k - n)).take (k - (k - n)) := by
  rw [List.rtake, length_take, Nat.min_eq_left hk, drop_take]

theorem expire_spec {windowSize : UInt64} (hp : 0 < windowSize.toNat) {xs : List UInt8}
    {last : UInt8 → UInt32} (h : Counts last xs) :
    (VotingState.expire windowSize xs last).1 = xs.rtake (windowSize.toNat - 1) ∧
      Counts (VotingState.expire windowSize xs last).2 (VotingState.expire windowSize xs last).1 := by
  induction xs generalizing last with
  | nil => exact ⟨by simp [VotingState.expire], h⟩
  | cons v vs ih =>
    unfold VotingState.expire
    by_cases hu : windowSize.toNat ≤ vs.length + 1
    · obtain ⟨heq, hc⟩ := ih h.decr_cons
      simp only [hu, if_true]
      refine ⟨?_, hc⟩
      rw [heq, List.rtake, List.rtake, length_cons,
        show vs.length + 1 - (windowSize.toNat - 1) = vs.length - (windowSize.toNat - 1) + 1 by omega,
        drop_succ_cons]
    · simp only [hu, if_false]
      refine ⟨?_, h⟩
      rw [List.rtake, length_cons, Nat.sub_eq_zero_of_le (by omega), drop_zero]

namespace HardFork

structure Windowed (hf : HardFork) (blocks : List Block) (st : VotingState) : Prop where
  versions : st.versions = (blocks.map hf.voteOf).rtake hf.windowSize.toNat
  counts : Counts st.lastVersions st.versions
  index : st.currentForkIndex < hf.heights.length

section
variable {hf : HardFork} {st st' : VotingState} {db : ForkDb} {blocks rest : List Block} {b : Block}
  {s t u : ForkNode} {height n i j : Nat}

theorem Windowed.eq (h : hf.Windowed blocks st) (h' : hf.Windowed blocks st')
    (hi : st.currentForkIndex = st'.currentForkIndex) : st = st' := by
  have hv : st.versions = st'.versions := h.versions.trans h'.versions.symm
  have hl : st.lastVersions = st'.lastVersions := h.counts.unique (hv ▸ h'.counts)
  cases st
  cases st'
  simp_all

theorem Windowed.length (h : hf.Windowed blocks st) : st.versions.length = min hf.windowSize.toNat blocks.length := by
  rw [h.versions, length_rtake, length_map]

theorem Windowed.getElem? (h : hf.Windowed blocks st) (i : Nat) :
    st.versions[i]? = (blocks[blocks.length - hf.windowSize.toNat + i]?).map hf.voteOf := by
  rw [h.versions, getElem?_rtake, List.getElem?_map, length_map]

theorem heights_pos (hf : HardFork) : 0 < hf.heights.length := length_pos_iff.mpr hf.nonempty

theorem votedFrom_lt (hn : n ≤ hf.heights.length) (hi : st.currentForkIndex < hf.heights.length)
    {votes : UInt32} : hf.votedFrom st height n votes < hf.heights.length := by
  induction n generalizing votes with
  | zero => exact hi
  | succ n ih =>
    rw [votedFrom, List.getElem?_eq_getElem (by omega)]
    dsimp only
    split
    · omega
    · exact ih (by omega)

theorem raiseForkIndex_eq (hf : HardFork) (st : VotingState) (height : Nat) :
    ∃ k, st.currentForkIndex ≤ k ∧ hf.raiseForkIndex st height = { st with currentForkIndex := k } ∧
      (st.currentForkIndex < hf.heights.length → k < hf.heights.length) := by
  unfold raiseForkIndex
  dsimp only
  split
  · refine ⟨_, by omega, rfl, ?_⟩
    intro hi
    exact Nat.lt_of_le_of_lt (Nat.mod_le _ _) (votedFrom_lt (Nat.le_refl _) hi)
  · exact ⟨st.currentForkIndex, Nat.le_refl _, rfl, id⟩

theorem Windowed.raiseForkIndex (h : hf.Windowed blocks st) : hf.Windowed blocks (hf.raiseForkIndex st height) := by
  obtain ⟨k, _, heq, hl⟩ := raiseForkIndex_eq hf st height
  rw [heq]
  exact ⟨h.versions, h.counts, hl h.index⟩

theorem Windowed.countVote (h : hf.Windowed blocks st) (b : Block) (height : Nat) : ∃ votes : VotingState,
    hf.countVote st (hf.voteOf b) height = hf.raiseForkIndex votes height ∧
      hf.Windowed (blocks ++ [b]) votes ∧ votes.currentForkIndex = st.currentForkIndex := by
  obtain ⟨hv, hc⟩ := expire_spec hf.window_pos h.counts
  refine ⟨_, rfl, ⟨?_, hc.incr_concat, h.index⟩, rfl⟩
  have hp := hf.window_pos
  obtain ⟨w, hw⟩ := Nat.exists_eq_succ_of_ne_zero (Nat.ne_of_gt hp)
  rw [hv, h.versions, rtake_rtake _ (Nat.sub_le _ _), map_append, hw]
  exact (rtake_concat_succ _ _ _).symm

/-! ## A fresh object -/

theorem addBlock_eq_some (h : hf.addBlock s b = some t) : t.db.blocks = s.db.blocks ++ [b] ∧
      t.st = hf.countVote s.st (hf.voteOf b) (s.db.blocks.length + 1) ∧
      t.db.hfVersions = (s.db.setHardForkVersion s.db.blocks.length (hf.getCurrentVersion s.st)).hfVersions := by
  unfold addBlock add at h
  by_cases hc : hf.check s.st b
  · simp only [hc, if_true, Option.map_some, Option.some.injEq] at h
    subst h
    exact ⟨rfl, rfl, rfl⟩
  · simp [hc] at h

theorem addBlock_windowed (hs : hf.Windowed s.db.blocks s.st) (h : hf.addBlock s b = some t) :
    hf.Windowed t.db.blocks t.st := by
  obtain ⟨hb, ht, _⟩ := addBlock_eq_some h
  obtain ⟨votes, hv, hi, _⟩ := hs.countVote b (s.db.blocks.length + 1)
  rw [hb, ht, hv]
  exact hi.raiseForkIndex

theorem start_windowed (hf : HardFork) : hf.Windowed start.db.blocks start.st :=
  ⟨by simp [start, VotingState.cleared], counts_nil, hf.heights_pos⟩

def Fresh (hf : HardFork) (blocks : List Block) (t : ForkNode) : Prop := run hf.addBlock start blocks = some t

theorem Fresh.unique (h : hf.Fresh blocks t) (h' : hf.Fresh blocks u) : t = u :=
  Option.some.inj (h.symm.trans h')

theorem Fresh.windowed (h : hf.Fresh blocks t) : hf.Windowed t.db.blocks t.st :=
  run_preserves (I := fun s => hf.Windowed s.db.blocks s.st) (fun _ _ _ hs => addBlock_windowed hs)
    (start_windowed hf) h

theorem run_blocks (h : run hf.addBlock s blocks = some t) : t.db.blocks = s.db.blocks ++ blocks := by
  induction blocks generalizing s with
  | nil =>
    cases h
    simp
  | cons b rest ih =>
    obtain ⟨w, hw, hr⟩ := run_cons_eq_some.mp h
    rw [ih hr, (addBlock_eq_some hw).1, append_assoc]
    rfl

theorem Fresh.blocks_eq (h : hf.Fresh blocks t) : t.db.blocks = blocks := run_blocks h

theorem run_index (h : run hf.addBlock s blocks = some t) (hs : hf.Windowed s.db.blocks s.st) :
    s.st.currentForkIndex ≤ t.st.currentForkIndex := by
  have hp : ∀ u b w, (hf.Windowed u.db.blocks u.st ∧ s.st.currentForkIndex ≤ u.st.currentForkIndex) →
      hf.addBlock u b = some w →
      hf.Windowed w.db.blocks w.st ∧ s.st.currentForkIndex ≤ w.st.currentForkIndex := by
    rintro u b w ⟨hu, hle⟩ hw
    refine ⟨addBlock_windowed hu hw, ?_⟩
    obtain ⟨votes, hv, _, hi⟩ := hu.countVote b (u.db.blocks.length + 1)
    obtain ⟨k, hk, hr, _⟩ := raiseForkIndex_eq hf votes (u.db.blocks.length + 1)
    rw [(addBlock_eq_some hw).2.1, hv, hr]
    exact Nat.le_trans hle (hi ▸ hk)
  exact (run_preserves hp ⟨hs, Nat.le_refl _⟩ h).2

theorem run_hfVersions (h : run hf.addBlock s blocks = some t) (hn : n < s.db.blocks.length) :
    t.db.hfVersions n = s.db.hfVersions n := by
  have hs : ∀ u b w, (n < u.db.blocks.length ∧ u.db.hfVersions n = s.db.hfVersions n) →
      hf.addBlock u b = some w → n < w.db.blocks.length ∧ w.db.hfVersions n = s.db.hfVersions n := by
    rintro u b w ⟨hl, heq⟩ hw
    obtain ⟨hb, _, hv⟩ := addBlock_eq_some hw
    constructor
    · rw [hb, length_append]
      omega
    · rw [hv, ← heq]
      exact if_neg (Nat.ne_of_lt hl)
  exact (run_preserves hs ⟨hn, rfl⟩ h).2

theorem Fresh.below (h : hf.Fresh blocks t) (hn : n < blocks.length) : ∃ u w,
    hf.Fresh (blocks.take n) u ∧ hf.addBlock u (blocks[n]) = some w ∧ hf.Fresh (blocks.take (n + 1)) w ∧
      run hf.addBlock w (blocks.drop (n + 1)) = some t ∧ t.db.hfVersions n = some (hf.versionAt u.st.currentForkIndex) ∧
      u.st.currentForkIndex ≤ t.st.currentForkIndex := by
  have hs : blocks = blocks.take n ++ blocks[n] :: blocks.drop (n + 1) := by
    rw [← drop_eq_getElem_cons hn, take_append_drop]
  have hru := h
  rw [hs] at hru
  obtain ⟨u, w, hu, hw, hr⟩ := run_split hru
  have hu' : hf.Fresh (blocks.take n) u := hu
  obtain ⟨hb, _, hv⟩ := addBlock_eq_some hw
  have hl : u.db.blocks.length = n := by
    rw [hu'.blocks_eq, length_take, Nat.min_eq_left (Nat.le_of_lt hn)]
  refine ⟨u, w, hu, hw, ?_, hr, ?_, ?_⟩
  · rw [Fresh, ← take_concat_get' blocks n hn, run_append, hu]
    exact run_cons_eq_some.mpr ⟨w, hw, rfl⟩
  · rw [run_hfVersions hr (by rw [hb, length_append, hl]; simp), hv, hl]
    exact if_pos rfl
  · have ht : run hf.addBlock u (blocks[n] :: blocks.drop (n + 1)) = some t :=
      run_cons_eq_some.mpr ⟨w, hw, hr⟩
    exact run_index ht hu'.windowed

theorem addBlock_st (hu : hf.Windowed u.db.blocks u.st) (h : hf.addBlock u b = some t)
    (hs : hf.Windowed (u.db.blocks ++ [b]) { st with currentForkIndex := u.st.currentForkIndex }) :
    t.st = hf.raiseForkIndex { st with currentForkIndex := u.st.currentForkIndex } (u.db.blocks.length + 1) := by
  obtain ⟨votes, hv, hi, hn⟩ := hu.countVote b (u.db.blocks.length + 1)
  rw [(addBlock_eq_some h).2.1, hv, hi.eq hs hn]

/-! ## Reading the state back -/

theorem readVotes_eq (hf : HardFork) {first count : Nat} (hle : first + count ≤ db.blocks.length) :
    ∃ votes, hf.readVotes db first count = some votes ∧
      votes.versions = ((db.blocks.drop first).take count).map hf.voteOf ∧
      Counts votes.lastVersions votes.versions := by
  induction count with
  | zero => exact ⟨VotingState.cleared, rfl, by simp [VotingState.cleared], counts_nil⟩
  | succ count ih =>
    obtain ⟨votes, hr, hv, hc⟩ := ih (by omega)
    have hl : first + count < db.blocks.length := by omega
    have hg : db.blocks[first + count]? = some (db.blocks[first + count]) := List.getElem?_eq_getElem hl
    refine ⟨votes.pushBack (hf.voteOf (db.blocks[first + count])), ?_, ?_, hc.incr_concat⟩
    · unfold readVotes at hr ⊢
      rw [List.range'_concat, foldlM_append, hr]
      simp [hg]
    · have ht : (db.blocks.drop first).take (count + 1) =
          (db.blocks.drop first).take count ++ [db.blocks[first + count]] := by
        rw [take_add_one, List.getElem?_drop, hg]
        rfl
      rw [ht, map_append]
      exact congrArg (· ++ [hf.voteOf (db.blocks[first + count])]) hv

theorem readVotes_windowed (hn : n ≤ db.blocks.length) (hi : i < hf.heights.length) :
    ∃ votes, hf.readVotes db (n - hf.windowSize.toNat) (n - (n - hf.windowSize.toNat)) = some votes ∧
      hf.Windowed (db.blocks.take n) { votes with currentForkIndex := i } := by
  obtain ⟨votes, hr, hv, hc⟩ :=
    @readVotes_eq db hf (n - hf.windowSize.toNat) (n - (n - hf.windowSize.toNat)) (by omega)
  refine ⟨votes, hr, ?_, hc, hi⟩
  have ha : (db.blocks.take n).map hf.voteOf = (db.blocks.map hf.voteOf).take n := map_take
  rw [ha, rtake_take _ (by simpa using hn), ← map_drop, ← map_take]
  exact hv

theorem versionAt_lt (hij : i < j) (hj : j < hf.heights.length) : hf.versionAt i < hf.versionAt j := by
  have hi : i < hf.heights.length := Nat.lt_trans hij hj
  have hp := (pairwise_iff_getElem.mp hf.ordered) i j hi hj hij
  have hi' : hf.heights[i]? = some (hf.heights[i]) := List.getElem?_eq_getElem hi
  have hj' : hf.heights[j]? = some (hf.heights[j]) := List.getElem?_eq_getElem hj
  simpa [versionAt, hi', hj'] using hp.1

theorem versionAt_inj (hi : i < hf.heights.length) (hj : j < hf.heights.length)
    (h : hf.versionAt i = hf.versionAt j) : i = j := by
  rcases Nat.lt_trichotomy i j with hl | heq | hl
  · exact absurd h (UInt8.ne_of_lt (versionAt_lt hl hj))
  · exact heq
  · exact absurd h.symm (UInt8.ne_of_lt (versionAt_lt hl hi))

theorem findIdx_version (hi : i < hf.heights.length) :
    hf.heights.dropLast.findIdx (·.version = hf.versionAt i) = i := by
  have hv : ∀ k (hk : k < hf.heights.length), (hf.heights[k]).version = hf.versionAt k := by
    intro k hk
    simp [versionAt, List.getElem?_eq_getElem hk]
  have ho : ∀ k < i, ¬ hf.versionAt k = hf.versionAt i := fun k hk =>
    UInt8.ne_of_lt (versionAt_lt hk hi)
  by_cases hl : i < hf.heights.dropLast.length
  · rw [findIdx_eq hl]
    constructor
    · simp [hv i hi]
    · intro k hk
      simp [hv k (by omega), ho k hk]
  · have hn : hf.heights.dropLast.length = hf.heights.length - 1 := length_dropLast
    have hen : hf.heights.dropLast.findIdx (·.version = hf.versionAt i) = hf.heights.dropLast.length := by
      rw [findIdx_eq_length]
      intro f hf'
      obtain ⟨k, hk, rfl⟩ := getElem_of_mem hf'
      simp [hv k (by omega), ho k (by omega)]
    omega

theorem init_fresh (h : hf.Fresh db.blocks t) (hve : ∀ n < db.blocks.length, db.hfVersions n = t.db.hfVersions n) :
    hf.init db = some t.st := by
  unfold init rescanFromChainHeight rescanFromBlockHeight
  by_cases hem : db.blocks.length = 0
  · have hn := length_eq_zero_iff.mp hem
    rw [hn] at h
    cases h
    simp [hn, start]
  · have hp := hf.window_pos
    have hfi : (if hf.windowSize.toNat < db.blocks.length then db.blocks.length - (hf.windowSize.toNat - 1)
        else 1) = db.blocks.length - hf.windowSize.toNat + 1 := by
      split <;> omega
    have hl : db.blocks.length - 1 < db.blocks.length := by omega
    obtain ⟨u, w, hu, hw, hr, _, hs, _⟩ := h.below hl
    have hln : db.blocks.length - 1 + 1 = db.blocks.length := by omega
    rw [hln, take_length] at hr
    obtain rfl := h.unique hr
    have hi := hu.windowed
    have ho : u.db.blocks.length + 1 = db.blocks.length := by
      rw [hu.blocks_eq, length_take]
      omega
    obtain ⟨votes, hd, hv⟩ := readVotes_windowed (Nat.le_refl db.blocks.length) hi.index
    rw [take_length] at hv
    have hb : u.db.blocks ++ [db.blocks[db.blocks.length - 1]] = db.blocks := by
      rw [hu.blocks_eq, take_concat_get', hln, take_length]
    have ht := addBlock_st hi hw (hb ▸ hv)
    rw [hfi, if_neg (by omega), Nat.add_sub_cancel, if_neg (by omega), hd]
    simp only [Option.bind_eq_bind, Option.bind_some, hve _ hl, hs, findIdx_version hi.index]
    rw [ht, ho]

variable {startVersion : UInt8}

theorem lowerForkIndex_eq (hi : i ≤ j) (hj : j < hf.heights.length) (hs : i = 0 ∨ hf.versionAt i ≤ startVersion)
    (ha : ∀ k, i < k → k < hf.heights.length → startVersion < hf.versionAt k) :
    hf.lowerForkIndex startVersion j = i := by
  induction j with
  | zero =>
    obtain rfl := Nat.le_zero.mp hi
    rfl
  | succ j ih =>
    unfold lowerForkIndex
    by_cases heq : i = j + 1
    · subst heq
      obtain hzero | hle := hs
      · omega
      · rw [if_neg (UInt8.not_lt.mpr hle)]
    · rw [if_pos (ha (j + 1) (by omega) hj)]
      exact ih (by omega) (by omega)

/-- The first fork above the start of the chain must not be in force there. -/
def StartsBelow (hf : HardFork) : Prop := ∀ f ∈ hf.heights[1]?, hf.originalVersion < f.version

theorem lowerForkIndex_fresh (hle : st.currentForkIndex ≤ j) (hj : j < hf.heights.length)
    (ha : startVersion = hf.versionAt st.currentForkIndex ∨
      st.currentForkIndex = 0 ∧ startVersion = hf.originalVersion ∧ hf.StartsBelow) :
    hf.lowerForkIndex startVersion j = st.currentForkIndex := by
  obtain rfl | ⟨hzero, rfl, hb⟩ := ha
  · exact lowerForkIndex_eq hle hj (.inr (UInt8.le_refl _)) fun k hk hl => versionAt_lt hk hl
  · refine lowerForkIndex_eq hle hj (.inl hzero) ?_
    intro k hk hl
    have ho : 1 < hf.heights.length := by omega
    have hs : hf.originalVersion < hf.versionAt 1 := by
      have := hb hf.heights[1] (by simp [List.getElem?_eq_getElem ho])
      simpa [versionAt, List.getElem?_eq_getElem ho] using this
    obtain rfl | hg := Nat.eq_or_lt_of_le (show 1 ≤ k by omega)
    · exact hs
    · exact UInt8.lt_trans hs (versionAt_lt hg hl)

theorem addAgain_eq (hr : run hf.addBlock u rest = some t) (hb : db.blocks = u.db.blocks ++ rest)
    (hv : ∀ n < db.blocks.length, db.hfVersions n = t.db.hfVersions n) :
    ∃ db', hf.addAgain u.db.blocks.length rest.length u.st db = some (t.st, db') ∧
      db'.blocks = db.blocks ∧ ∀ n < db.blocks.length, db'.hfVersions n = t.db.hfVersions n := by
  induction rest generalizing u db with
  | nil =>
    cases hr
    exact ⟨db, rfl, rfl, hv⟩
  | cons b rest ih =>
    obtain ⟨w, hw, hre⟩ := run_cons_eq_some.mp hr
    obtain ⟨hwb, hs, hwv⟩ := addBlock_eq_some hw
    have hc : hf.check u.st b = true := by
      by_contra ho
      simp [addBlock, add, ho] at hw
    have hl : w.db.blocks.length = u.db.blocks.length + 1 := by simp [hwb]
    -- the version written again is the one the chain has stored
    have hso : t.db.hfVersions u.db.blocks.length = some (hf.getCurrentVersion u.st) := by
      rw [run_hfVersions hre (by omega), hwv]
      exact if_pos rfl
    have hg : db.blocks[u.db.blocks.length]? = some b := by simp [hb]
    have hd : hf.add u.st db b u.db.blocks.length =
        some (w.st, db.setHardForkVersion u.db.blocks.length (hf.getCurrentVersion u.st)) := by
      simp [add, hc, hs]
    obtain ⟨db', ha, hb', hv'⟩ :=
      @ih (db.setHardForkVersion u.db.blocks.length (hf.getCurrentVersion u.st)) w hre
        (by simp [ForkDb.setHardForkVersion, hb, hwb]) (by
          intro n hn
          by_cases ht : n = u.db.blocks.length
          · simp [ForkDb.setHardForkVersion, ht, hso]
          · simpa [ForkDb.setHardForkVersion, ht] using hv n hn)
    refine ⟨db', ?_, hb', hv'⟩
    rw [hl] at ha
    unfold addAgain at ha ⊢
    rw [length_cons, List.range'_succ]
    simpa [hg, hd] using ha

theorem reorganize_fresh (h : hf.Fresh db.blocks t)
    (hv : ∀ n < db.blocks.length, db.hfVersions n = t.db.hfVersions n) (ho : height = 1 → hf.StartsBelow) :
    ∃ db', hf.reorganizeFromChainHeight t.st db height = some (t.st, db') ∧
      db'.blocks = db.blocks ∧ ∀ n < db.blocks.length, db'.hfVersions n = t.db.hfVersions n := by
  unfold reorganizeFromChainHeight reorganizeFromBlockHeight
  by_cases hzero : height = 0
  · exact ⟨db, by simp [hzero], rfl, hv⟩
  by_cases hl : db.blocks.length ≤ height - 1
  · exact ⟨db, by simp [hzero, hl], rfl, hv⟩
  obtain ⟨k, rfl⟩ := Nat.exists_eq_succ_of_ne_zero hzero
  simp only [Nat.succ_eq_add_one, Nat.add_sub_cancel] at hl ⊢
  have ht : k < db.blocks.length := by omega
  obtain ⟨u, w, hu, hw, hfr, hr, hso, hi⟩ := h.below ht
  have hp := hf.window_pos
  have hwi := hu.windowed
  have hfi : (if hf.windowSize.toNat - 1 ≤ k then k - (hf.windowSize.toNat - 1) else 0) =
      k + 1 - hf.windowSize.toNat := by
    split <;> omega
  have hn : u.db.blocks.length = k := by
    rw [hu.blocks_eq, length_take]
    omega
  obtain ⟨votes, hd, hvo⟩ := readVotes_windowed (show k + 1 ≤ db.blocks.length by omega) hwi.index
  have hb : u.db.blocks ++ [db.blocks[k]] = db.blocks.take (k + 1) := by
    rw [hu.blocks_eq, take_concat_get']
  have hst := addBlock_st hwi hw (hb ▸ hvo)
  have hs : ∃ startVersion, hf.startVersion db k = some startVersion ∧
      hf.lowerForkIndex startVersion t.st.currentForkIndex = u.st.currentForkIndex := by
    by_cases hk : k = 0
    · subst hk
      refine ⟨_, if_pos rfl, lowerForkIndex_fresh hi h.windowed.index (.inr ⟨?_, rfl, ho rfl⟩)⟩
      rw [Fresh] at hu
      cases hu
      rfl
    · rw [startVersion, if_neg hk, hv k ht, hso]
      exact ⟨_, rfl, lowerForkIndex_fresh hi h.windowed.index (.inl rfl)⟩
  obtain ⟨startVersion, hs, hlw⟩ := hs
  have hwb := (addBlock_eq_some hw).1
  have hwl : w.db.blocks.length = k + 1 := by simp [hwb, hn]
  obtain ⟨db', ha, hb', hv'⟩ := addAgain_eq hr
    (by rw [hwb, hb, take_append_drop]) hv
  refine ⟨db', ?_, hb', hv'⟩
  rw [if_neg (by omega), if_neg (by omega), hfi, hs]
  simp only [Option.bind_eq_bind, Option.bind_some, hd, hlw]
  rw [length_drop, hwl, hst, hn] at ha
  exact ha

theorem popVotes_eq {first : Nat} (h : popVotes db first n st = some st') :
    st'.versions.length = st.versions.length ∧ (∀ i < st.versions.length,
        st'.versions[i]? = if i < n then db.hfVersions (first + i) else st.versions[i - n]?) ∧
      (Counts st.lastVersions st.versions → Counts st'.lastVersions st'.versions) := by
  induction n generalizing st with
  | zero =>
    cases h
    exact ⟨rfl, by simp, id⟩
  | succ n ih =>
    obtain ⟨back, hb, h⟩ := Option.bind_eq_some_iff.mp h
    obtain ⟨version, hv, h⟩ := Option.bind_eq_some_iff.mp h
    have hs : st.versions.dropLast ++ [back] = st.versions := List.dropLast_append_getLast? back hb
    have hn : st.versions.dropLast.length + 1 = st.versions.length := by
      rw [← hs]
      simp
    obtain ⟨hl, hg, hc⟩ := ih h
    simp only [length_cons, hn] at hl hg
    refine ⟨hl, ?_, ?_⟩
    · intro i hi
      rw [hg i hi]
      rcases Nat.lt_trichotomy i n with hlt | heq | hgt
      · rw [if_pos hlt, if_pos (by omega)]
      · subst heq
        simp [hv]
      · rw [if_neg (by omega), if_neg (by omega), show i - n = i - (n + 1) + 1 by omega,
          List.getElem?_cons_succ, List.getElem?_dropLast, if_pos (by omega)]
    · intro ht
      rw [← hs] at ht
      exact hc ht.decr_concat.incr_cons

theorem scheduledIndex_le (hf : HardFork) (height n : Nat) : hf.scheduledIndex height n ≤ n := by
  induction n with
  | zero => exact Nat.le_refl _
  | succ n ih =>
    unfold scheduledIndex
    split <;> omega

theorem scheduledIndex_lt (hf : HardFork) (height : Nat) :
    hf.scheduledIndex height (hf.heights.length - 1) < hf.heights.length := by
  have hle := scheduledIndex_le hf height (hf.heights.length - 1)
  have hp := hf.heights_pos
  omega

/-- The chain left is as long as the window, the stored versions are the votes that come back, and
the fork in force for the lowest removed block is the scheduled one. -/
structure PopHolds (hf : HardFork) (db : ForkDb) (nblocks : Nat) : Prop where
  full : hf.windowSize.toNat ≤ db.blocks.length - nblocks
  votes : ∀ i < nblocks, i < hf.windowSize.toNat →
    db.hfVersions (db.blocks.length - nblocks + i) =
      (db.blocks[db.blocks.length - nblocks - hf.windowSize.toNat + i]?).map hf.voteOf
  scheduled : db.hfVersions (db.blocks.length - nblocks) =
    some (hf.versionAt (hf.scheduledIndex (db.blocks.length - nblocks) (hf.heights.length - 1)))

/-- The state of the node is the one of a fresh object that has added the blocks of its chain. -/
def StateOfChain (hf : HardFork) (s : ForkNode) : Prop := ∃ t, hf.Fresh s.db.blocks t ∧ s.st = t.st

structure Follows (hf : HardFork) (s t : ForkNode) : Prop where
  fresh : hf.Fresh s.db.blocks t
  st : s.st = t.st
  stored : ∀ n < s.db.blocks.length, s.db.hfVersions n = t.db.hfVersions n

theorem pop_eq_some (h : forkStep hf s (.pop n) = some t) :
    0 < n ∧ n < s.db.blocks.length ∧ t.db.blocks = s.db.blocks.take (s.db.blocks.length - n) ∧
      t.db.hfVersions = s.db.hfVersions ∧ ∃ st, popVotes t.db (s.db.blocks.length - n) n s.st = some st ∧
        t.st = { st with
          currentForkIndex := hf.scheduledIndex (s.db.blocks.length - n) (hf.heights.length - 1) } := by
  dsimp only [forkStep, onBlockPopped] at h
  by_cases hle : n ≤ s.db.blocks.length
  · rw [if_pos hle] at h
    obtain ⟨st', hp, rfl⟩ := Option.map_eq_some_iff.mp h
    rw [length_take, Nat.min_eq_left (Nat.sub_le _ _)] at hp
    by_cases hn : n = 0 ∨ s.db.blocks.length - n = 0
    · rw [if_pos hn] at hp
      cases hp
    · rw [if_neg hn] at hp
      obtain ⟨st, hs, rfl⟩ := Option.map_eq_some_iff.mp hp
      exact ⟨by omega, by omega, rfl, rfl, st, hs, rfl⟩
  · rw [if_neg hle] at h
    cases h

theorem pop_window (hs : hf.Windowed s.db.blocks s.st) (h : forkStep hf s (.pop n) = some t) :
    hf.Windowed t.db.blocks t.st ↔ hf.windowSize.toNat ≤ s.db.blocks.length - n ∧
      ∀ i < n, i < hf.windowSize.toNat → s.db.hfVersions (s.db.blocks.length - n + i) =
        (s.db.blocks[s.db.blocks.length - n - hf.windowSize.toNat + i]?).map hf.voteOf := by
  obtain ⟨hpo, hlt, hb, ho, st, hp, hst⟩ := pop_eq_some h
  obtain ⟨hln, hg, hc⟩ := popVotes_eq hp
  have hl : t.db.blocks.length = s.db.blocks.length - n := by
    rw [hb, length_take]
    omega
  have hbe : ∀ k < s.db.blocks.length - n, t.db.blocks[k]? = s.db.blocks[k]? := by
    intro k hk
    rw [hb, List.getElem?_take_of_lt hk]
  rw [hs.length] at hln hg
  rw [ho] at hg
  have hv : t.st.versions = st.versions := by rw [hst]
  constructor
  · intro ht
    have hu := ht.length
    rw [hv, hln, hl] at hu
    refine ⟨by omega, ?_⟩
    intro i hi hw
    have hvt := hg i (by omega)
    rw [if_pos hi, ← hv, ht.getElem?, hl, hbe _ (by omega)] at hvt
    exact hvt.symm
  · rintro ⟨hu, hvo⟩
    refine ⟨?_, ?_, ?_⟩
    · rw [hv]
      apply List.ext_getElem?
      intro i
      rw [getElem?_rtake, List.getElem?_map, length_map, hl]
      by_cases hi : i < hf.windowSize.toNat
      · rw [hg i (by omega), hbe _ (by omega)]
        by_cases hn : i < n
        · rw [if_pos hn, hvo i hn hi]
        · rw [if_neg hn, hs.getElem?, show s.db.blocks.length - hf.windowSize.toNat + (i - n) =
            s.db.blocks.length - n - hf.windowSize.toNat + i by omega]
      · rw [List.getElem?_eq_none (by omega), List.getElem?_eq_none (by omega)]
        rfl
    · rw [hst]
      exact hc hs.counts
    · rw [hst]
      exact scheduledIndex_lt hf _

theorem Follows.pop (hs : hf.Follows s u) (h : forkStep hf s (.pop n) = some t) :
    ∃ w, hf.Fresh t.db.blocks w ∧ (∀ k < t.db.blocks.length, t.db.hfVersions k = w.db.hfVersions k) ∧
      (t.st = w.st ↔ hf.PopHolds s.db n) := by
  obtain ⟨hp, hl, hb, hso, st, _, ht⟩ := pop_eq_some h
  have hbe : s.db.blocks.length - n < s.db.blocks.length := by omega
  obtain ⟨w, _, hw, _, _, _, hr, _⟩ := hs.fresh.below hbe
  have hwi : hf.Windowed s.db.blocks s.st := by
    have := hs.fresh.windowed
    rwa [hs.fresh.blocks_eq, ← hs.st] at this
  have hw' : hf.Windowed t.db.blocks w.st := by
    have := hw.windowed
    rwa [hw.blocks_eq, ← hb] at this
  have hi : t.st.currentForkIndex =
      hf.scheduledIndex (s.db.blocks.length - n) (hf.heights.length - 1) := by rw [ht]
  refine ⟨w, hb ▸ hw, ?_, ?_, ?_⟩
  · intro k hk
    have hk' : k < s.db.blocks.length - n := by
      rw [hb, length_take] at hk
      omega
    obtain ⟨v, _, hv, _, _, _, hs', _⟩ := hs.fresh.below (show k < s.db.blocks.length by omega)
    obtain ⟨v', _, hv', _, _, _, hs'', _⟩ := hw.below (show k < _ by simp; omega)
    rw [take_take, Nat.min_eq_left (by omega)] at hv'
    rw [hso, hs.stored k (by omega), hs', hs'', hv.unique hv']
  · intro heq
    obtain ⟨hu, ho⟩ := (pop_window hwi h).mp (heq ▸ hw')
    refine ⟨hu, ho, ?_⟩
    rw [hs.stored _ hbe, hr, ← heq, hi]
  · rintro ⟨hu, ho, hc⟩
    apply ((pop_window hwi h).mpr ⟨hu, ho⟩).eq hw'
    rw [hs.stored _ hbe, hr] at hc
    apply versionAt_inj (hi ▸ scheduledIndex_lt hf _) hw'.index
    rw [hi]
    exact (Option.some.inj hc).symm

def CallHolds (hf : HardFork) (s : ForkNode) : ForkOp → Prop
  | .pop nblocks => hf.PopHolds s.db nblocks
  | .reorganize height => height = 1 → hf.StartsBelow
  | .add _ | .init => True

theorem Follows.step (hs : hf.Follows s u) {op : ForkOp} (hp : hf.CallHolds s op)
    (h : forkStep hf s op = some t) : ∃ w, hf.Follows t w := by
  cases op with
  | add b =>
    have hl : u.db.blocks.length = s.db.blocks.length := by rw [hs.fresh.blocks_eq]
    have hc : hf.check s.st b = true := by
      by_contra hno
      simp [forkStep, addBlock, add, hno] at h
    obtain ⟨w, hw⟩ : ∃ w, hf.addBlock u b = some w := by simp [addBlock, add, ← hs.st, hc]
    obtain ⟨hb, ht, hv⟩ := addBlock_eq_some (show hf.addBlock s b = some t from h)
    obtain ⟨_, hs', hv'⟩ := addBlock_eq_some hw
    refine ⟨w, ?_, by rw [ht, hs', hs.st, hl], ?_⟩
    · rw [Fresh, hb, run_append, show run hf.addBlock start s.db.blocks = some u from hs.fresh]
      exact run_cons_eq_some.mpr ⟨w, hw, rfl⟩
    · intro n hn
      rw [hb, length_append, length_singleton] at hn
      rw [hv, hv', hl]
      by_cases ha : n = s.db.blocks.length
      · simp [ForkDb.setHardForkVersion, ha, hs.st]
      · simpa [ForkDb.setHardForkVersion, ha] using hs.stored n (by omega)
  | pop n =>
    obtain ⟨w, hw, ho, hi⟩ := hs.pop h
    exact ⟨w, hw, hi.mpr hp, ho⟩
  | reorganize height =>
    obtain ⟨db, hr, hb, ho⟩ := reorganize_fresh hs.fresh hs.stored hp
    rw [forkStep, hs.st, hr] at h
    cases h
    exact ⟨u, hb ▸ hs.fresh, rfl, hb ▸ ho⟩
  | init =>
    rw [forkStep, init_fresh hs.fresh hs.stored] at h
    cases h
    exact ⟨u, hs.fresh, rfl, hs.stored⟩

end

end HardFork

namespace Sample

def unanimousFork (height : UInt64) (h : 1 < height) : HardFork where
  originalVersion := 1
  windowSize := 2
  heights := [⟨1, 1, 0, 1⟩, ⟨2, height, 100, 2⟩]
  window_pos := by decide
  ordered := by simp [HardforkT.Before, h]
  nonempty := by simp

def firstVotes : List ForkOp := (List.range 4).map fun h => .add (startBlock config h)

end Sample

end Gyro
