import Gyro.BlockQueue
import Gyro.Lib.LabelSet
import Gyro.Lib.Runs

/-!
# The hash sets of the download queue

What is erased takes its hashes out of both sets, so the sets tell what the queue lists
as long as no hash is listed twice.
-/

namespace Gyro

open LabelSet Runs List

structure QueueExact (q : BlockQueue) : Prop where
  requested : ∀ hash, q.requested hash ↔ ∃ s ∈ q.blocks, hash ∈ s.hashes
  haveHash : ∀ hash, q.haveHash hash ↔ ∃ s ∈ q.blocks, s.blocks ≠ [] ∧ hash ∈ s.hashes
  once : ∀ s ∈ q.blocks, ∀ t ∈ q.blocks, ∀ hash, hash ∈ s.hashes → hash ∈ t.hashes → s = t

namespace BlockQueue

variable {q : BlockQueue} {s t : Span} {hashes : List Hash} {height : UInt64}

theorem distinct (q : BlockQueue) : Distinct Span.startBlockHeight q.blocks := by
  intro s hs t ht hk
  by_contra hn
  have hy : (q.blocks.map Span.startBlockHeight).Nodup :=
    pairwise_map.mpr (q.sorted.imp fun hl heq => absurd (heq ▸ hl) (UInt64.lt_irrefl _))
  exact hn (inj_on_of_nodup_map hy hs ht hk)

theorem mem_insert (hn : ∀ t ∈ q.blocks, t.startBlockHeight ≠ s.startBlockHeight) :
    t ∈ (q.insert s).blocks ↔ t = s ∨ t ∈ q.blocks := by
  simp only [insert, dif_pos hn, mem_append, mem_cons, mem_filter, decide_eq_true_eq]
  constructor
  · rintro (⟨ht, -⟩ | rfl | ⟨ht, -⟩)
    exacts [Or.inr ht, Or.inl rfl, Or.inr ht]
  · rintro (rfl | ht)
    · exact Or.inr (Or.inl rfl)
    · rcases UInt64.lt_or_lt_of_ne (hn t ht) with hl | hg
      exacts [Or.inl ⟨ht, hl⟩, Or.inr (Or.inr ⟨ht, hg⟩)]

theorem insert_of_taken (ht : ¬ ∀ t ∈ q.blocks, t.startBlockHeight ≠ s.startBlockHeight) : q.insert s = q := by
  rw [insert, dif_neg ht]

@[simp] theorem requestedHashes_insert : (q.insert s).requestedHashes = q.requestedHashes := by
  unfold insert
  split <;> rfl

@[simp] theorem haveBlocks_insert : (q.insert s).haveBlocks = q.haveBlocks := by
  unfold insert
  split <;> rfl

theorem mem_eraseBlock : t ∈ (q.eraseBlock s).blocks ↔ t ∈ q.blocks ∧ t.startBlockHeight ≠ s.startBlockHeight := by
  simp [eraseBlock]

theorem eraseBlock_free : ∀ t ∈ (q.eraseBlock s).blocks, t.startBlockHeight ≠ s.startBlockHeight :=
  fun _ ht => (mem_eraseBlock.mp ht).2

theorem setSpanHashes_of_mem (hs : s ∈ q.blocks) : q.setSpanHashes s.startBlockHeight s.connectionId hashes =
      { q.eraseBlock s with
        requestedHashes := (q.eraseBlock s).requestedHashes ∪ hashes.toFinset }.insert { s with hashes } := by
  have hsm : (q.blocks.find? fun t =>
      t.startBlockHeight = s.startBlockHeight && t.connectionId = s.connectionId).isSome :=
    List.find?_isSome.mpr ⟨s, hs, by simp⟩
  obtain ⟨t, hf⟩ := Option.isSome_iff_exists.mp hsm
  have hk : t.startBlockHeight = s.startBlockHeight ∧ t.connectionId = s.connectionId := by
    simpa using List.find?_some hf
  obtain rfl := q.distinct t (List.mem_of_find?_eq_some hf) s hs hk.1
  simp only [setSpanHashes, hf]

end BlockQueue

structure HashesExact (q : BlockQueue) : Prop where
  requested : Exact Span.hashes (fun _ => True) q.requestedHashes q.blocks
  haveHash : Exact Span.hashes (fun s => s.blocks ≠ []) q.haveBlocks q.blocks
  apart : Apart Span.startBlockHeight Span.hashes q.blocks

namespace HashesExact

variable {q : BlockQueue} {s t : Span} {hashes : List Hash} {height : UInt64} {connectionId : Uuid}

section
variable (h : HashesExact q)
include h

theorem queueExact : QueueExact q where
  requested hash := by simpa [BlockQueue.requested] using h.requested hash
  haveHash hash := by simpa [BlockQueue.haveHash] using h.haveHash hash
  once s hs t ht hash hl hl' := q.distinct s hs t ht (h.apart s hs t ht hash hl hl')

theorem eraseBlock (hs : s ∈ q.blocks) : HashesExact (q.eraseBlock s) where
  requested := h.requested.erase h.apart q.distinct hs
  haveHash := h.haveHash.erase h.apart q.distinct hs
  apart := h.apart.filter

theorem foldl_eraseBlock {p : Span → Bool} {rest : List Span} (hr : ∀ s ∈ rest, s ∈ q.blocks)
    (hs : rest.Pairwise fun s t => s.startBlockHeight < t.startBlockHeight) :
    HashesExact (rest.foldl (fun q s => if p s then q.eraseBlock s else q) q) := by
  induction rest generalizing q with
  | nil => exact h
  | cons s rest ih =>
    obtain ⟨hf, hs⟩ := pairwise_cons.mp hs
    simp only [foldl_cons]
    by_cases hp : p s
    · simp only [hp, if_true]
      refine ih (h.eraseBlock (hr s mem_cons_self)) (fun t ht => ?_) hs
      refine BlockQueue.mem_eraseBlock.mpr ⟨hr t (mem_cons_of_mem _ ht), fun heq => ?_⟩
      exact UInt64.lt_irrefl _ (heq ▸ hf t ht)
    · simp only [hp, Bool.false_eq_true, if_false]
      exact ih h (fun t ht => hr t (mem_cons_of_mem _ ht)) hs

theorem eraseBlocks {p : Span → Bool} : HashesExact (q.eraseBlocks p) :=
  h.foldl_eraseBlock (fun _ hs => hs) q.sorted

theorem removeSpan : HashesExact (q.removeSpan height).1 := by
  unfold BlockQueue.removeSpan
  split
  next s hs => exact h.eraseBlock (List.mem_of_find?_eq_some hs)
  next => exact h

theorem insert_bare (hb : s.hashes = []) : HashesExact (q.insert s) := by
  by_cases hn : ∀ t ∈ q.blocks, t.startBlockHeight ≠ s.startBlockHeight
  · have hme : ∀ t, t ∈ (q.insert s).blocks ↔ t = s ∨ t ∈ q.blocks := fun t => BlockQueue.mem_insert hn
    refine ⟨?_, ?_, h.apart.insert hme (by simp [hb])⟩
    · simpa using h.requested.insert_silent hme fun _ => hb
    · simpa using h.haveHash.insert_silent hme fun _ => hb
  · rwa [BlockQueue.insert_of_taken hn]

theorem insert_listed {q' : BlockQueue} (hme : ∀ t, t ∈ q'.blocks ↔ t = s ∨ t ∈ q.blocks)
    (hr : q'.requestedHashes = q.requestedHashes ∪ s.hashes.toFinset)
    (hh : q'.haveBlocks = q.haveBlocks ∪ s.hashes.toFinset ∧ s.blocks ≠ [] ∨
      q'.haveBlocks = q.haveBlocks ∧ (s.blocks ≠ [] → s.hashes = []))
    (hn : ∀ t ∈ q.blocks, ∀ hash ∈ s.hashes, hash ∉ t.hashes) : HashesExact q' := by
  refine ⟨?_, ?_, h.apart.insert hme hn⟩
  · rw [hr]
    exact h.requested.insert hme trivial
  · rcases hh with ⟨hh, hf⟩ | ⟨hh, hs⟩
    · rw [hh]
      exact h.haveHash.insert hme hf
    · rw [hh]
      exact h.haveHash.insert_silent hme hs

theorem setSpanHashes (ho : ∀ s ∈ q.blocks, s.startBlockHeight = height → s.connectionId = connectionId →
      (s.blocks = [] ∨ hashes = []) ∧ ∀ t ∈ q.blocks, t.startBlockHeight ≠ height → ∀ hash ∈ hashes, hash ∉ t.hashes) :
    HashesExact (q.setSpanHashes height connectionId hashes) := by
  unfold BlockQueue.setSpanHashes
  split
  next s hs =>
    have hme := List.mem_of_find?_eq_some hs
    obtain ⟨ha, hc⟩ : s.startBlockHeight = height ∧ s.connectionId = connectionId := by
      simpa using List.find?_some hs
    obtain ⟨hem, hot⟩ := ho s hme ha hc
    refine (h.eraseBlock hme).insert_listed (s := { s with hashes }) (fun t => BlockQueue.mem_insert ?_) ?_ ?_ ?_
    · exact BlockQueue.eraseBlock_free
    · exact BlockQueue.requestedHashes_insert
    · refine Or.inr ⟨BlockQueue.haveBlocks_insert, fun hf => ?_⟩
      exact hem.resolve_left hf
    · intro t ht
      obtain ⟨ht, hn⟩ := BlockQueue.mem_eraseBlock.mp ht
      exact hot t ht (ha ▸ hn)
  next => exact h

theorem addBlocks {bcel : List BlockCompleteEntry}
    (ho : bcel ≠ [] ∨ ∀ s ∈ q.blocks, s.startBlockHeight = height → s.hashes = []) :
    HashesExact (q.addBlocks height bcel connectionId) := by
  unfold BlockQueue.addBlocks BlockQueue.removeSpan
  cases hf : q.blocks.find? (·.startBlockHeight = height) with
  | none => exact h.insert_bare rfl
  | some r =>
    have hr := List.mem_of_find?_eq_some hf
    obtain rfl : r.startBlockHeight = height := by simpa using List.find?_some hf
    -- The new span takes the place of the old one, first without hashes.
    let b : Span := ⟨r.startBlockHeight, [], bcel, connectionId, UInt64.ofNat bcel.length⟩
    have hfr : ∀ t ∈ (q.eraseBlock r).blocks, t.startBlockHeight ≠ b.startBlockHeight := BlockQueue.eraseBlock_free
    have hme : ∀ t, t ∈ ((q.eraseBlock r).insert b).blocks ↔ t = b ∨ t ∈ (q.eraseBlock r).blocks :=
      fun t => BlockQueue.mem_insert hfr
    let q' : BlockQueue :=
      { (q.eraseBlock r).insert b with
        requestedHashes := ((q.eraseBlock r).insert b).requestedHashes ∪ r.hashes.toFinset
        haveBlocks := ((q.eraseBlock r).insert b).haveBlocks ∪ r.hashes.toFinset }
    have hb : b ∈ q'.blocks := (hme b).mpr (Or.inl rfl)
    show HashesExact (q'.setSpanHashes b.startBlockHeight b.connectionId r.hashes)
    rw [BlockQueue.setSpanHashes_of_mem hb]
    have hre : ∀ t, t ∈ (q'.eraseBlock b).blocks ↔ t ∈ (q.eraseBlock r).blocks := by
      intro t
      rw [BlockQueue.mem_eraseBlock]
      constructor
      · rintro ⟨ht, hn⟩
        exact ((hme t).mp ht).resolve_left fun heq => hn (congrArg _ heq)
      · intro ht
        exact ⟨(hme t).mpr (Or.inr ht), hfr t ht⟩
    refine (h.eraseBlock hr).insert_listed (s := { b with hashes := r.hashes }) (fun t => ?_) ?_ ?_ ?_
    · refine (BlockQueue.mem_insert ?_).trans (or_congr Iff.rfl (hre t))
      exact BlockQueue.eraseBlock_free
    · simp [BlockQueue.eraseBlock, q', b]
    · by_cases hi : bcel = []
      · have ha := ho.resolve_left (not_not.mpr hi) r hr rfl
        exact Or.inr ⟨by simp [BlockQueue.eraseBlock, q', b, ha], fun _ => ha⟩
      · exact Or.inl ⟨by simp [BlockQueue.eraseBlock, q', b], hi⟩
    · intro t ht hash hh hl
      obtain ⟨ht, hn⟩ := BlockQueue.mem_eraseBlock.mp ht
      exact hn (h.apart t ht r hr hash hl hh)

theorem addScheduled {nblocks : UInt64} : HashesExact (q.addScheduled height nblocks connectionId) := by
  unfold BlockQueue.addScheduled
  split
  next => exact h
  next => exact h.insert_bare rfl

end

end HashesExact

/-- No requested hash comes after one that was not, and the peer has no span with blocks at a height
of the offer. -/
def FreshOffer (q : BlockQueue) (r : SpanRequest) : Prop :=
  (∀ hash ∈ r.blockHashes.dropWhile (q.requested ·.1), ¬ q.requested hash.1) ∧
    ∀ s ∈ q.blocks, s.connectionId = r.connectionId → s.blocks ≠ [] →
      s.startBlockHeight < r.blockHashesStartHeight ∨ r.lastBlockHeight < s.startBlockHeight

namespace BlockQueue

variable {q : BlockQueue} {r : SpanRequest} {height start : UInt64} {left : List (Hash × UInt64)} {hashes : List Hash}

theorem skipRequested_eq : q.skipRequested left height =
    (left.dropWhile (q.requested ·.1), height + UInt64.ofNat (left.takeWhile (q.requested ·.1)).length) := by
  induction left generalizing height with
  | nil => simp [skipRequested]
  | cons a rest ih =>
    obtain ⟨hash, n⟩ := a
    by_cases hr : q.requested hash
    · simp only [skipRequested, hr, if_true, ih, dropWhile_cons, takeWhile_cons, length_cons]
      rw [UInt64.ofNat_add, UInt64.add_assoc, UInt64.add_comm 1]
      rfl
    · simp [skipRequested, hr]

theorem mem_spanHashes {hash : Hash} {firstIsPruned : Bool} {spanLength : UInt64}
    (h : hash ∈ r.spanHashes start firstIsPruned spanLength left) : ∃ n, (hash, n) ∈ left := by
  induction left generalizing spanLength with
  | nil => simp [SpanRequest.spanHashes] at h
  | cons a rest ih =>
    simp only [SpanRequest.spanHashes] at h
    split at h
    · split at h
      · cases h
      · rcases mem_cons.mp h with rfl | hi
        · exact ⟨a.2, mem_cons_self⟩
        · obtain ⟨n, hn⟩ := ih hi
          exact ⟨n, mem_cons_of_mem _ hn⟩
    · cases h

theorem le_skipPruned : start ≤ r.skipPruned start := by
  unfold SpanRequest.skipPruned
  split
  · dsimp only
    split
    next hn => exact UInt64.le_of_lt hn.1
    next => exact UInt64.le_refl _
  · exact UInt64.le_refl _

theorem mem_dropWhile_of_mem_drop {α : Type} {p : α → Bool} {l : List α} {j : Nat} {a : α}
    (hj : (l.takeWhile p).length ≤ j) (ha : a ∈ l.drop j) : a ∈ l.dropWhile p := by
  have hs : l.drop j = (l.dropWhile p).drop (j - (l.takeWhile p).length) := by
    conv_lhs => rw [← takeWhile_append_dropWhile (p := p) (l := l)]
    rw [drop_append, drop_eq_nil_of_le hj, nil_append]
  exact mem_of_mem_drop (hs ▸ ha)

theorem span_bounds {k : Nat} (hk : k ≤ r.blockHashes.length)
    (hs : ¬ r.lastBlockHeight < UInt64.ofNat r.blockHashes.length)
    (ha : r.blockHashesStartHeight + UInt64.ofNat k ≤ start)
    (hn : ¬ UInt64.ofNat r.blockHashes.length + r.blockHashesStartHeight ≤ start) :
    r.blockHashesStartHeight ≤ start ∧ start ≤ r.lastBlockHeight ∧ k ≤ (start - r.blockHashesStartHeight).toNat := by
  have hlen : (UInt64.ofNat r.blockHashes.length).toNat = r.blockHashes.length := UInt64.toNat_ofNat_of_lt' r.size_lt
  have hkn : (UInt64.ofNat k).toNat = k := UInt64.toNat_ofNat_of_lt' (hk.trans_lt r.size_lt)
  have hla := r.lastBlockHeight.toNat_lt
  have hle : UInt64.ofNat r.blockHashes.length ≤ r.lastBlockHeight := UInt64.not_lt.mp hs
  have ho : r.blockHashesStartHeight.toNat = (r.lastBlockHeight.toNat - r.blockHashes.length + 1) % 2 ^ 64 := by
    rw [SpanRequest.blockHashesStartHeight, UInt64.toNat_add, UInt64.toNat_sub_of_le _ _ hle, hlen]
    rfl
  rw [UInt64.le_iff_toNat_le] at hle
  rw [UInt64.le_iff_toNat_le, UInt64.toNat_add] at ha
  rw [UInt64.le_iff_toNat_le, UInt64.toNat_add] at hn
  have hl : r.blockHashesStartHeight.toNat ≤ start.toNat := by omega
  refine ⟨UInt64.le_iff_toNat_le.mpr hl, UInt64.le_iff_toNat_le.mpr (by omega), ?_⟩
  rw [UInt64.toNat_sub_of_le _ _ (UInt64.le_iff_toNat_le.mpr hl)]
  omega

theorem nextSpan_fresh (hfe : FreshOffer q r) (h : q.nextSpan r = some (start, hashes)) :
    (∀ hash ∈ hashes, ¬ q.requested hash) ∧ r.blockHashesStartHeight ≤ start ∧ start ≤ r.lastBlockHeight := by
  unfold nextSpan at h
  split at h
  next => cases h
  next =>
    split at h
    next => cases h
    next hs =>
      dsimp only at h
      split at h
      next => cases h
      next hen =>
        simp only [skipRequested_eq] at h hen
        have hk := (takeWhile_sublist (q.requested ·.1) (l := r.blockHashes)).length_le
        obtain ⟨hl, hh, hj⟩ := span_bounds hk hs le_skipPruned hen
        generalize r.skipPruned _ = first at h hl hh hj
        have hf : ∀ a ∈ r.blockHashes.drop (first - r.blockHashesStartHeight).toNat, ¬ q.requested a.1 :=
          fun a ha => hfe.1 a (mem_dropWhile_of_mem_drop hj ha)
        have hsk : (r.blockHashes.drop (first - r.blockHashesStartHeight).toNat).takeWhile (q.requested ·.1) = [] := by
          cases hd : r.blockHashes.drop (first - r.blockHashesStartHeight).toNat with
          | nil => rfl
          | cons a rest => exact takeWhile_cons_of_neg (hf a (hd ▸ mem_cons_self))
        have hzero : first + UInt64.ofNat ([] : List (Hash × UInt64)).length = first := UInt64.add_zero first
        rw [hsk, hzero] at h
        split at h
        next => cases h
        next hash rest hp =>
          cases h
          refine ⟨fun hash' hh' => ?_, hl, hh⟩
          obtain ⟨n, hn⟩ := mem_spanHashes (hp ▸ hh')
          exact hf _ (dropWhile_subset _ hn)

end BlockQueue

namespace HashesExact

variable {q : BlockQueue} {r : SpanRequest}

theorem reserveSpan (h : HashesExact q) (hf : FreshOffer q r) : HashesExact (q.reserveSpan r).1 := by
  unfold BlockQueue.reserveSpan
  split
  next => exact h
  next start hashes hn =>
    obtain ⟨hnw, hl, hi⟩ := BlockQueue.nextSpan_fresh hf hn
    have hu : ∀ t ∈ q.blocks, ∀ hash ∈ hashes, hash ∉ t.hashes := by
      intro t ht hash hh hli
      refine hnw hash hh (decide_eq_true ((h.requested hash).mpr ⟨t, ht, trivial, hli⟩))
    -- Of the spans in the queue only the new one is not from before.
    have hme : ∀ t ∈ (q.addScheduled start (UInt64.ofNat hashes.length) r.connectionId).blocks,
        t ∈ q.blocks ∨ t.hashes = [] ∧ t.blocks = [] := by
      intro t ht
      unfold BlockQueue.addScheduled at ht
      split at ht
      next => exact Or.inl ht
      next =>
        by_cases hr : ∀ u ∈ q.blocks, u.startBlockHeight ≠ start
        · rcases (BlockQueue.mem_insert hr).mp ht with rfl | hold
          exacts [Or.inr ⟨rfl, rfl⟩, Or.inl hold]
        · rw [BlockQueue.insert_of_taken hr] at ht
          exact Or.inl ht
    refine h.addScheduled.setSpanHashes fun s hs ha hc => ⟨Or.inl ?_, fun t ht _ hash hh => ?_⟩
    · rcases hme s hs with hold | ⟨-, hem⟩
      · by_contra hfi
        rcases hf.2 s hold hc hfi with hb | hab
        · exact absurd (ha ▸ hb) (UInt64.not_lt.mpr hl)
        · exact absurd (ha ▸ hab) (UInt64.not_lt.mpr hi)
      · exact hem
    · rcases hme t ht with hold | ⟨hba, -⟩
      · exact hu t hold hash hh
      · simp [hba]

end HashesExact

inductive QueueOp where
  | addBlocks (height : UInt64) (bcel : List BlockCompleteEntry) (connectionId : Uuid)
  | addScheduled (height nblocks : UInt64) (connectionId : Uuid)
  | reserveSpan (r : SpanRequest)
  | setSpanHashes (startHeight : UInt64) (connectionId : Uuid) (hashes : List Hash)
  | removeSpan (startBlockHeight : UInt64)
  | removeSpans (connectionId : Uuid) (startBlockHeight : UInt64)
  | flushSpans (connectionId : Uuid) (all : Bool)
  | flushStaleSpans (liveConnections : List Uuid)

def BlockQueue.step (q : BlockQueue) : QueueOp → Option BlockQueue
  | .addBlocks height bcel connectionId => some (q.addBlocks height bcel connectionId)
  | .addScheduled height nblocks connectionId => some (q.addScheduled height nblocks connectionId)
  | .reserveSpan r => some (q.reserveSpan r).1
  | .setSpanHashes startHeight connectionId hashes => some (q.setSpanHashes startHeight connectionId hashes)
  | .removeSpan startBlockHeight => some (q.removeSpan startBlockHeight).1
  | .removeSpans connectionId startBlockHeight => some (q.removeSpans connectionId startBlockHeight)
  | .flushSpans connectionId all => some (q.flushSpans connectionId all)
  | .flushStaleSpans liveConnections => some (q.flushStaleSpans liveConnections)

/-- Hashes go to a span that waits for its blocks and are listed nowhere else, and an empty answer
does not replace a span with hashes. -/
def KeepsTrack (q : BlockQueue) : QueueOp → Prop
  | .addBlocks height bcel _ => bcel ≠ [] ∨ ∀ s ∈ q.blocks, s.startBlockHeight = height → s.hashes = []
  | .reserveSpan r => FreshOffer q r
  | .setSpanHashes startHeight connectionId hashes =>
    ∀ s ∈ q.blocks, s.startBlockHeight = startHeight → s.connectionId = connectionId →
      (s.blocks = [] ∨ hashes = []) ∧
        ∀ t ∈ q.blocks, t.startBlockHeight ≠ startHeight → ∀ hash ∈ hashes, hash ∉ t.hashes
  | _ => True

theorem HashesExact.step {q q' : BlockQueue} {op : QueueOp} (h : HashesExact q) (ho : KeepsTrack q op)
    (hs : q.step op = some q') : HashesExact q' := by
  cases op with
  | addBlocks => cases hs; exact h.addBlocks ho
  | addScheduled => cases hs; exact h.addScheduled
  | reserveSpan => cases hs; exact h.reserveSpan ho
  | setSpanHashes => cases hs; exact h.setSpanHashes ho
  | removeSpan => cases hs; exact h.removeSpan
  | removeSpans | flushSpans | flushStaleSpans => cases hs; exact h.eraseBlocks

/-- In every state reached by calls that keep track of the hashes. -/
theorem queue_hashes_exact (ops : List QueueOp) (q : BlockQueue)
    (hops : EveryStep BlockQueue.step KeepsTrack BlockQueue.empty ops)
    (hrun : run BlockQueue.step BlockQueue.empty ops = some q) : QueueExact q := by
  have hem : HashesExact BlockQueue.empty := by
    refine ⟨?_, ?_, ?_⟩ <;> simp [Exact, Apart, BlockQueue.empty]
  exact (run_invariant (fun _ _ _ hq ho hs => hq.step ho hs) hem hops hrun).queueExact

namespace Sample

def offer (connectionId : Uuid) (lastBlockHeight : UInt64) (hashes : List Hash) (hlen : hashes.length < 2 ^ 64) :
    SpanRequest where
  firstBlockHeight := 1
  lastBlockHeight := lastBlockHeight
  maxBlocks := 20
  connectionId := connectionId
  syncPrunedBlocks := false
  localPruningSeed := 0
  pruningSeed := 0
  blockchainHeight := 12
  blockHashes := hashes.map fun hash => (hash, 0)
  size_lt := by simpa using hlen

def offerOne : SpanRequest := offer 1 11 [0xb] (by decide)
def offerTwo : SpanRequest := offer 2 11 [0xa, 0xb] (by decide)

end Sample

open Sample in
theorem queue_hashes_exact_filled :
    ∃ q, run BlockQueue.step BlockQueue.empty [.reserveSpan offerOne, .addBlocks 11 [⟨[], []⟩] 1] = some q ∧
      q.haveHash 0xb ∧ QueueExact q := by
  have hs : (run BlockQueue.step BlockQueue.empty [.reserveSpan offerOne, .addBlocks 11 [⟨[], []⟩] 1]).map
      (·.haveHash 0xb) = some true := by decide +kernel
  obtain ⟨q, hr, hh⟩ := Option.map_eq_some_iff.mp hs
  refine ⟨q, hr, hh, queue_hashes_exact _ q ?_ hr⟩
  have hf : FreshOffer BlockQueue.empty offerOne := by
    simp [FreshOffer, BlockQueue.empty, BlockQueue.requested]
  refine everyStep_cons hf fun q hq => ?_
  exact everyStep_cons (Or.inl (by simp)) fun _ _ => everyStep_nil

open Sample in
/-- The second reservation lists a hash of the first, which is forgotten when the first peer goes.
-/
theorem queue_forgets_requested :
    (∃ q, run BlockQueue.step BlockQueue.empty [.reserveSpan offerOne, .reserveSpan offerTwo] = some q ∧
        q.blocks.map (fun s => (s.startBlockHeight, s.connectionId, s.hashes)) =
          [(10, 2, [0xa, 0xb]), (11, 1, [0xb])]) ∧
      ∃ q, run BlockQueue.step BlockQueue.empty [.reserveSpan offerOne, .reserveSpan offerTwo, .flushSpans 1 true] =
          some q ∧
        q.blocks.map (·.hashes) = [[0xa, 0xb]] ∧ q.requested 0xb = false := by
  have ht : (run BlockQueue.step BlockQueue.empty [.reserveSpan offerOne, .reserveSpan offerTwo]).map
      (fun q => q.blocks.map fun s => (s.startBlockHeight, s.connectionId, s.hashes)) =
      some [(10, 2, [0xa, 0xb]), (11, 1, [0xb])] := by decide +kernel
  have hg : (run BlockQueue.step BlockQueue.empty
      [.reserveSpan offerOne, .reserveSpan offerTwo, .flushSpans 1 true]).map
      (fun q => (q.blocks.map (·.hashes), q.requested 0xb)) = some ([[0xa, 0xb]], false) := by decide +kernel
  obtain ⟨q, hq, hb⟩ := Option.map_eq_some_iff.mp ht
  obtain ⟨q', hq', ha⟩ := Option.map_eq_some_iff.mp hg
  exact ⟨⟨q, hq, hb⟩, q', hq', Prod.mk.inj ha⟩

end Gyro
