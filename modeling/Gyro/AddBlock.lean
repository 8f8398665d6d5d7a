import Gyro.Node

/-!
# Adding a block is a run of node steps

`add_new_block`, with the switches and rollbacks it may set off, is a run of the
node's steps, so what holds along every run of steps holds here.
-/

namespace Gyro

open Runs List

structure Holds (S : Block → Prop) (st : Blockchain) : Prop where
  main : ∀ e ∈ st.db.entries, S e.block
  alt : ∀ id ab, st.altBlocks id = some ab → S ab.block

/-- `st'` is reached from `st` by steps that bring in blocks of `S` only. -/
def Steps (env : Env) (fuel : Nat) (S : Block → Prop) (st st' : Blockchain) : Prop :=
  Reaches (nodeStep env fuel) (NodeOp.Brings S) st st'

variable {env : Env} {fuel : Nat} {now : UInt64} {S : Block → Prop} {st st' : Blockchain} {b : Block}

theorem Holds.handle (hs : Holds S st) (hb : S b) : Holds S (handleBlockToMainChain env fuel now st b).state := by
  by_cases ha : ∃ st', handleBlockToMainChain env fuel now st b = .added st'
  · obtain ⟨st', hs'⟩ := ha
    rw [hs']
    obtain ⟨t, weight, v, hc⟩ := handle_added hs'
    constructor
    · intro e he
      change e ∈ st'.db.entries at he
      rw [(Db.addBlock_eq_ok hc.written).2.1] at he
      obtain hold | hn := mem_append.mp he
      · exact hs.main e hold
      · rw [mem_singleton.mp hn]
        exact hb
    · intro id ab hab
      rw [hc.state] at hab
      exact hs.alt id ab hab
  · obtain ⟨hd, hl⟩ := handle_not_added (fun st' h => ha ⟨st', h⟩)
    exact ⟨by rw [hd]; exact hs.main, by rw [hl]; exact hs.alt⟩

theorem Holds.step (hs : Holds S st) {op : NodeOp} (ho : op.Brings S)
    (h : nodeStep env fuel st op = some st') : Holds S st' := by
  cases op with
  | handle now b =>
    cases h
    exact hs.handle ho
  | pop =>
    obtain ⟨popped, hp⟩ := nodeStep_pop.mp h
    obtain ⟨e, hre, _, hsa⟩ := popBlock_eq_ok hp
    constructor
    · intro e' he'
      exact hs.main e' (by rw [(Db.removeBlock_eq_ok hre).1]; exact mem_append_left _ he')
    · intro id ab ha
      rw [hsa] at ha
      exact hs.alt id ab ha
  | store b =>
    obtain ⟨chain, ab, hso⟩ := nodeStep_store.mp h
    obtain ⟨below, timestamps, parent, spin, hr⟩ := storeAlternative_eq_ok hso
    constructor
    · rw [hr.state]
      exact hs.main
    · intro id ab' ha'
      obtain ⟨_, rfl⟩ | hb := hr.altBlocks ha'
      · rw [hr.block]
        exact ho
      · exact hs.alt id ab' hb
  | removeAlt id =>
    cases h
    refine ⟨hs.main, ?_⟩
    intro id' ab ha
    change (if id' = id then none else st.altBlocks id') = some ab at ha
    split at ha
    · cases ha
    · exact hs.alt id' ab ha
  | touch pool invalidBlocks blocksTxsCheck =>
    cases h
    exact ⟨hs.main, hs.alt⟩

theorem Holds.steps (ht : Holds S st) (h : Steps env fuel S st st') : Holds S st' :=
  h.preserves (fun _ _ _ hs ho hp => hs.step ho hp) ht

theorem steps_handle (hb : S b) : Steps env fuel S st (handleBlockToMainChain env fuel now st b).state :=
  Reaches.single (i := NodeOp.handle now b) hb rfl

theorem steps_touch {pool : Pool} {invalidBlocks blocksTxsCheck : List Hash} :
    Steps env fuel S st { st with pool, invalidBlocks, blocksTxsCheck } :=
  Reaches.single (i := NodeOp.touch pool invalidBlocks blocksTxsCheck) trivial rfl

theorem steps_removeAlt {id : Hash} : Steps env fuel S st (st.removeAltBlock id) :=
  Reaches.single (i := NodeOp.removeAlt id) trivial rfl

theorem steps_popUntil (ht : Holds S st) {stop : Db → Bool} {n : Nat} :
    (∀ st' old, popUntil stop n st [] = .ok (st', old) → Steps env fuel S st st' ∧ ∀ b ∈ old, S b) ∧
    ∀ f st', popUntil stop n st [] = .error (f, st') → Steps env fuel S st st' := by
  have hr := @popUntil_rule (fun s old => Steps env fuel S st s ∧ ∀ b ∈ old, S b) stop ?_ n st []
    ⟨Reaches.refl, by simp⟩
  · refine ⟨hr.1, ?_⟩
    intro f st' h
    obtain ⟨_, hs, _⟩ := hr.2 f st' h
    exact hs
  · rintro s popped s' b ⟨hs, hpp⟩ hp
    obtain ⟨e, hre, rfl, _⟩ := popBlock_eq_ok hp
    refine ⟨hs.trans (Reaches.single (i := NodeOp.pop) trivial (nodeStep_pop.mpr ⟨_, hp⟩)), ?_⟩
    have hl : e ∈ s.db.entries := by
      rw [(Db.removeBlock_eq_ok hre).1]
      simp
    intro c hc
    cases hc with
    | head => exact (ht.steps hs).main e hl
    | tail _ hc => exact hpp c hc

theorem steps_connect {bs : List Block} (hb : ∀ b ∈ bs, S b) :
    Steps env fuel S st (connect env fuel now st bs).state := by
  induction bs generalizing st with
  | nil => exact Reaches.refl
  | cons b bs ih =>
    have hh := @steps_handle env fuel now S st b (hb b mem_cons_self)
    have hr : ∀ c ∈ bs, S c := fun c hc => hb c (mem_cons_of_mem _ hc)
    rw [connect]
    split
    · rename_i st' ha
      rw [ha] at hh
      exact hh.trans (ih hr)
    · rename_i hj
      rw [hj] at hh
      exact hh
    · rename_i hra
      rw [hra] at hh
      exact hh

variable {bs : List Block}

theorem steps_discardInvalid : Steps env fuel S st (st.discardInvalid bs) := by
  induction bs generalizing st with
  | nil => exact Reaches.refl
  | cons b bs ih => exact (steps_removeAlt.trans steps_touch).trans ih

theorem steps_removeAltBlocks : Steps env fuel S st (st.removeAltBlocks bs) := by
  induction bs generalizing st with
  | nil => exact Reaches.refl
  | cons b bs ih => exact steps_removeAlt.trans ih

def EndsIn (env : Env) (fuel : Nat) (S : Block → Prop) (st : Blockchain)
    (x : Except (Fault × Blockchain) Blockchain) : Prop :=
  (∀ st', x = .ok st' → Steps env fuel S st st') ∧
    ∀ f st', x = .error (f, st') → Steps env fuel S st st'

theorem endsIn_ok (h : Steps env fuel S st st') : EndsIn env fuel S st (.ok st') := by
  constructor
  · rintro _ ⟨⟩
    exact h
  · rintro _ _ ⟨⟩

theorem endsIn_error {f : Fault} (h : Steps env fuel S st st') : EndsIn env fuel S st (.error (f, st')) := by
  constructor
  · rintro _ ⟨⟩
  · rintro _ _ ⟨⟩
    exact h

theorem endsIn_rollback (hs : Holds S st) {original : List Block} (ho : ∀ b ∈ original, S b) {height : UInt64} :
    EndsIn env fuel S st (rollbackBlockchainSwitching env fuel now st original height) := by
  unfold rollbackBlockchainSwitching
  have hp := @steps_popUntil env fuel S st hs (fun db => decide (db.height = height))
    st.db.entries.length
  split
  · exact endsIn_ok Reaches.refl
  · split
    · rename_i e hr
      obtain ⟨f, st'⟩ := e
      exact endsIn_error (hp.2 f st' hr)
    · rename_i popped old hk
      have hpp := (hp.1 popped old hk).1
      have hc := hpp.trans (@steps_connect env fuel now S popped original ho)
      split
      · rename_i ha
        rw [ha] at hc
        exact endsIn_ok hc
      · rename_i hsp
        rw [hsp] at hc
        exact endsIn_ok hc
      · rename_i hra
        rw [hra] at hc
        exact endsIn_error hc

variable {store : Blockchain → Block → AltOutcome}

theorem endsIn_pushDisconnected
    (ho : ∀ s b, Holds S s → S b → Steps env fuel S s (store s b).state) (hs : Holds S st) (hb : ∀ b ∈ bs, S b) :
    EndsIn env fuel S st (pushDisconnected store st bs) := by
  induction bs generalizing st with
  | nil => exact endsIn_ok Reaches.refl
  | cons b bs ih =>
    have hf := ho st b hs (hb b mem_cons_self)
    rw [pushDisconnected]
    split
    · rename_i f st' hr
      rw [hr] at hf
      exact endsIn_error hf
    · obtain ⟨hk, her⟩ :=
        ih (hs.steps hf) fun c hc => hb c (mem_cons_of_mem _ hc)
      exact ⟨fun st' h => hf.trans (hk st' h), fun f st' h => hf.trans (her f st' h)⟩

variable {chain : List AltBlock}

theorem steps_switch
    (hso : ∀ s b, Holds S s → S b → Steps env fuel S s (store s b).state) (hs : Holds S st) (hh : ∀ ab ∈ chain, S ab.block) {discard : Bool} :
    Steps env fuel S st (switchToAlternativeBlockchain env fuel now store st chain discard).state := by
  unfold switchToAlternativeBlockchain
  split
  · exact Reaches.refl
  · rename_i front rest
    have hp := @steps_popUntil env fuel S st hs
      (fun db => decide (db.topBlockHash = front.block.prevId)) st.db.entries.length
    have hl : ∀ b ∈ (front :: rest).map (·.block), S b := by
      intro b hb
      obtain ⟨ab, ha, rfl⟩ := mem_map.mp hb
      exact hh ab ha
    dsimp only
    split
    · exact Reaches.refl
    · split
      · rename_i f st' hr
        exact hp.2 _ st' hr
      · rename_i popped old ho
        obtain ⟨hpp, hold⟩ := hp.1 popped old ho
        have hc := hpp.trans (@steps_connect env fuel now S popped _ hl)
        split
        · rename_i hra
          rw [hra] at hc
          exact hc
        · rename_i hsp
          rw [hsp] at hc
          have hro := @endsIn_rollback env fuel now S _ (hs.steps hc) old hold popped.db.height
          split
          · rename_i f st' hr
            exact hc.trans (hro.2 _ st' hr)
          · rename_i st' ho
            exact (hc.trans (hro.1 st' ho)).trans steps_discardInvalid
        · rename_i connected hall
          rw [hall] at hc
          have hu : EndsIn env fuel S connected
              (if discard then .ok connected else pushDisconnected store connected old) := by
            split
            · exact endsIn_ok Reaches.refl
            · exact endsIn_pushDisconnected hso (hs.steps hc) hold
          split
          · rename_i f st' hr
            exact hc.trans (hu.2 _ st' hr)
          · rename_i st' ho
            exact (hc.trans (hu.1 st' ho)).trans steps_removeAltBlocks

theorem steps_handleAlternativeBlock {depth : Nat} :
    ∀ st b, Holds S st → S b → Steps env fuel S st (handleAlternativeBlock env fuel now depth st b).state := by
  induction depth with
  | zero => exact fun st b _ _ => Reaches.refl
  | succ depth ih =>
    intro st b hs hb
    unfold handleAlternativeBlock
    split
    · exact Reaches.refl
    · exact Reaches.refl
    · split
      · exact Reaches.refl
      · split
        · exact Reaches.refl
        · exact Reaches.refl
        · rename_i kept chain ab ho
          have hk : Steps env fuel S st kept :=
            Reaches.single (i := NodeOp.store b) hb (nodeStep_store.mpr ⟨chain, ab, ho⟩)
          have hc : ∀ ab' ∈ chain, S ab'.block := by
            intro ab' ha'
            obtain ⟨id, hi⟩ := storeAlternative_stored ho ab' ha'
            exact (hs.steps hk).alt id ab' hi
          have hsw : ∀ discard, Steps env fuel S st (switchToAlternativeBlockchain env fuel now
              (handleAlternativeBlock env fuel now depth) kept chain discard).state :=
            fun discard => hk.trans (steps_switch ih (hs.steps hk) hc)
          split
          · exact hsw true
          · split
            · exact hsw false
            · exact hk

/-- Adding a block is a run of steps and brings in no other block. -/
theorem addNewBlock_steps (hs : Holds S st) (hb : S b) {depth : Nat} :
    Steps env fuel S st (addNewBlock env fuel depth now st b) ∧ Holds S (addNewBlock env fuel depth now st b) := by
  suffices hse : Steps env fuel S st (addNewBlock env fuel depth now st b) from
    ⟨hse, hs.steps hse⟩
  unfold addNewBlock
  split
  · exact steps_touch
  · split
    · have ha := @steps_handleAlternativeBlock env fuel now S depth st b hs hb
      split
      · rename_i hr
        rw [hr] at ha
        exact ha
      · exact ha.trans steps_touch
    · have hh := @steps_handle env fuel now S st b hb
      split
      · rename_i hd
        rw [hd] at hh
        exact hh
      · rename_i hj
        rw [hj] at hh
        exact hh
      · rename_i hr
        rw [hr] at hh
        exact hh

theorem steps_connectChain (hs : Holds S st)
    (hh : ∀ ab ∈ chain, S ab.block) (h : connectChain env fuel now st chain = some st') : Steps env fuel S st st' := by
  unfold connectChain at h
  split at h
  · cases h
  · rename_i front rest
    split at h
    · cases h
    · rename_i popped old hp
      obtain ⟨hpp, _⟩ := (@steps_popUntil env fuel S st hs _ _).1 popped old hp
      split at h
      · rename_i connected ha
        cases h
        have hl : ∀ b ∈ (front :: rest).map (·.block), S b := by
          intro b hb
          obtain ⟨ab, hab, rfl⟩ := mem_map.mp hb
          exact hh ab hab
        have hc := @steps_connect env fuel now S popped _ hl
        rw [ha] at hc
        exact hpp.trans hc
      · cases h

def Reached (env : Env) (fuel : Nat) (S : Block → Prop) (st : Blockchain) : Prop :=
  ∃ st₀, Fresh st₀ ∧ Steps env fuel S st₀ st

section
variable (hs : Reached env fuel S st)
include hs

theorem Reached.steps (h : Steps env fuel S st st') : Reached env fuel S st' := by
  obtain ⟨st₀, hf, hse⟩ := hs
  exact ⟨st₀, hf, hse.trans h⟩

theorem Reached.holds : Holds S st := by
  obtain ⟨st₀, hf, hse⟩ := hs
  refine Holds.steps ⟨?_, ?_⟩ hse
  · rw [hf.db]
    intro e he
    cases he
  · intro id ab ha
    rw [hf.altBlocks] at ha
    cases ha

theorem Reached.added (hb : S b) {depth : Nat} : Reached env fuel S (Gyro.addNewBlock env fuel depth now st b) :=
  hs.steps (addNewBlock_steps hs.holds hb).1

theorem Reached.switchByWeight (hb : S b)
    (h : Gyro.switchByWeight env fuel now st b = some st') : Reached env fuel S st' := by
  obtain ⟨kept, chain, ab, ho, _, hc⟩ := switchByWeight_eq_some h
  have hk : Steps env fuel S st kept :=
    Reaches.single (i := NodeOp.store b) hb (nodeStep_store.mpr ⟨chain, ab, ho⟩)
  refine hs.steps (hk.trans (steps_connectChain (hs.steps hk).holds ?_ hc))
  intro ab' ha'
  obtain ⟨id, hi⟩ := storeAlternative_stored ho ab' ha'
  exact (hs.steps hk).holds.alt id ab' hi

end

theorem TrueChain.step (ht : TrueChain env.cfg S st.db) {op : NodeOp} (ho : op.Brings S)
    (h : nodeStep env fuel st op = some st') : TrueChain env.cfg S st'.db := by
  cases op with
  | handle now b =>
    cases h
    by_cases hd : ∃ st', handleBlockToMainChain env fuel now st b = .added st'
    · obtain ⟨st', hd⟩ := hd
      rw [hd]
      exact (ht.added ho hd).1
    · rw [(handle_not_added (not_exists.mp hd)).1]
      exact ht
  | pop =>
    obtain ⟨popped, hp⟩ := nodeStep_pop.mp h
    obtain ⟨e, hr, _⟩ := popBlock_eq_ok hp
    exact ht.removeBlock hr
  | store b =>
    obtain ⟨chain, ab, ho⟩ := nodeStep_store.mp h
    obtain ⟨_, _, _, _, hr⟩ := storeAlternative_eq_ok ho
    rw [hr.state]
    exact ht
  | removeAlt | touch =>
    cases h
    exact ht

theorem Reached.trueChain (hs : Reached env fuel S st) : TrueChain env.cfg S st.db := by
  obtain ⟨st₀, hf, hs⟩ := hs
  apply hs.preserves (I := fun st => TrueChain env.cfg S st.db)
  · intro st op st' ht ho h
    exact ht.step ho h
  · exact hf.trueNode.main

/-- Every call with its clock and the depth to which it may switch. -/
def addNewBlocks (env : Env) (fuel : Nat) (st : Blockchain) (calls : List (UInt64 × Nat × Block)) : Blockchain :=
  calls.foldl (fun st c => addNewBlock env fuel c.2.1 c.1 st c.2.2) st

def Offered (calls : List (UInt64 × Nat × Block)) (b : Block) : Prop := ∃ c ∈ calls, c.2.2 = b

/-- After any calls, whatever switches and rollbacks they set off, the main chain is linked and stored
with the gyro of its blocks, and every block, also beside it, is one that was offered. -/
theorem added_chain_true (hf : Fresh st) (calls : List (UInt64 × Nat × Block)) :
    TrueChain env.cfg (Offered calls) (addNewBlocks env fuel st calls).db ∧
      Holds (Offered calls) (addNewBlocks env fuel st calls) := by
  have hr : Reached env fuel (Offered calls) (addNewBlocks env fuel st calls) := by
    apply foldlRecOn calls _ ⟨st, hf, Reaches.refl⟩
    intro st hs c hc
    exact hs.added ⟨c, hc, rfl⟩
  exact ⟨hr.trueChain, hr.holds⟩

open Sample in
theorem added_chain_true_of_start : ∃ calls, (addNewBlocks (Sample.env forkConfig) 3 node calls).db.height = 5 ∧
    TrueChain forkConfig (Offered calls) (addNewBlocks (Sample.env forkConfig) 3 node calls).db := by
  refine ⟨(range 5).map fun h => (clock, 1, startBlock forkConfig h), by decide +kernel, ?_⟩
  exact (@added_chain_true (Sample.env forkConfig) 3 node ⟨rfl, fun _ => rfl⟩ _).1

end Gyro
