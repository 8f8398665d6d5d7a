import Gyro.Alternative

/-!
# Reorganizations

`pop_block_from_blockchain`, `rollback_blockchain_switching`,
`switch_to_alternative_blockchain`, `handle_alternative_block` and `add_new_block`.
-/

namespace Gyro

def Transaction.isCoinbase (tx : Transaction) : Bool :=
  match tx.vin with
  | [.gen _] => true
  | _ => false

def poppedTxs (e : BlockEntry) : List Transaction :=
  e.txs.reverse.filter fun tx => !tx.pruned && !tx.isCoinbase

/-- `pop_block_from_blockchain`; the genesis block is never popped. -/
def popBlockFromBlockchain (st : Blockchain) : Except Fault (Blockchain × Block) :=
  if st.db.height ≤ 1 then .error .dbError
  else
    match st.db.removeBlock with
    | .error _ => .error .dbError
    | .ok (db, e) =>
      .ok ({ st with db, pool := st.pool.returnTxs (poppedTxs e), blocksTxsCheck := [] }, e.block)

/-- Pops blocks until `stop` holds. On success the popped blocks too, lowest first. -/
def popUntil (stop : Db → Bool) :
    Nat → Blockchain → List Block → Except (Fault × Blockchain) (Blockchain × List Block)
  | 0, st, popped => if stop st.db then .ok (st, popped) else .error (.outOfFuel, st)
  | fuel + 1, st, popped =>
    if stop st.db then .ok (st, popped)
    else
      match popBlockFromBlockchain st with
      | .error f => .error (f, st)
      | .ok (st, b) => popUntil stop fuel st (b :: popped)

theorem popUntil_rule {I : Blockchain → List Block → Prop} {stop : Db → Bool}
    (hp : ∀ st popped st' b, I st popped → popBlockFromBlockchain st = .ok (st', b) → I st' (b :: popped))
    {n : Nat} {st : Blockchain} {popped : List Block} (h₀ : I st popped) :
    (∀ st' old, popUntil stop n st popped = .ok (st', old) → I st' old) ∧
      ∀ f st', popUntil stop n st popped = .error (f, st') → ∃ old, I st' old := by
  induction n generalizing st popped with
  | zero =>
    unfold popUntil
    split
    · refine ⟨?_, by simp⟩
      intro st' old h
      cases h
      exact h₀
    · refine ⟨by simp, ?_⟩
      intro f st' h
      cases h
      exact ⟨popped, h₀⟩
  | succ n ih =>
    unfold popUntil
    split
    · refine ⟨?_, by simp⟩
      intro st' old h
      cases h
      exact h₀
    · split
      · refine ⟨by simp, ?_⟩
        intro f st' h
        cases h
        exact ⟨popped, h₀⟩
      · rename_i st' b hr
        exact ih (hp st popped st' b h₀ hr)

inductive Connected where
  | all (st : Blockchain)
  /-- The first block that is rejected, with those after it. -/
  | stopped (b : Block) (rest : List Block) (why : Rejection) (st : Blockchain)
  | raised (f : Fault) (st : Blockchain)

namespace Connected

def state : Connected → Blockchain
  | .all st | .stopped _ _ _ st | .raised _ st => st

end Connected

section
variable (env : Env) (fuel : Nat) (now : UInt64)

def connect : Blockchain → List Block → Connected
  | st, [] => .all st
  | st, b :: bs =>
    match handleBlockToMainChain env fuel now st b with
    | .added st => connect st bs
    | .rejected why st => .stopped b bs why st
    | .raised f st => .raised f st

/-- Back to the height, then the original blocks again; the result is not looked at. -/
def rollbackBlockchainSwitching (st : Blockchain) (original : List Block) (height : UInt64) :
    Except (Fault × Blockchain) Blockchain :=
  if st.db.height < height then .ok st
  else
    match popUntil (fun db => db.height = height) st.db.entries.length st [] with
    | .error e => .error e
    | .ok (st, _) =>
      match connect env fuel now st original with
      | .all st => .ok st
      | .stopped _ _ _ st => .ok st
      | .raised f st => .error (f, st)

end

inductive AltOutcome where
  /-- The block is kept beside the main chain. -/
  | stored (st : Blockchain)
  | orphaned (st : Blockchain)
  | switched (st : Blockchain)
  | switchFailed (st : Blockchain)
  | refused (why : AltRejection) (st : Blockchain)
  | raised (f : Fault) (st : Blockchain)

namespace AltOutcome

def state : AltOutcome → Blockchain
  | .stored st | .orphaned st | .switched st | .switchFailed st | .refused _ st | .raised _ st => st

end AltOutcome

namespace Blockchain

def discardInvalid (st : Blockchain) (bs : List Block) : Blockchain :=
  bs.foldl (fun st b =>
    { st.removeAltBlock b.hash with invalidBlocks := b.hash :: st.invalidBlocks }) st

def removeAltBlocks (st : Blockchain) (bs : List Block) : Blockchain :=
  bs.foldl (fun st b => st.removeAltBlock b.hash) st

end Blockchain

/-- A block that is refused is passed over; an exception ends the switch. -/
def pushDisconnected (store : Blockchain → Block → AltOutcome) :
    Blockchain → List Block → Except (Fault × Blockchain) Blockchain
  | st, [] => .ok st
  | st, b :: bs =>
    match store st b with
    | .raised f st => .error (f, st)
    | outcome => pushDisconnected store outcome.state bs

/-- `switch_to_alternative_blockchain`; `store` handles the old blocks. -/
def switchToAlternativeBlockchain (env : Env) (fuel : Nat) (now : UInt64)
    (store : Blockchain → Block → AltOutcome) (st : Blockchain) (chain : List AltBlock)
    (discard : Bool) : AltOutcome :=
  match chain with
  | [] => .switchFailed st
  | front :: _ =>
    let blocks := chain.map (·.block)
    if ¬ st.db.blockExists front.block.prevId then .switchFailed st
    else
      match popUntil (fun db => db.topBlockHash = front.block.prevId) st.db.entries.length st [] with
      | .error (f, st) => .raised f st
      | .ok (st, disconnected) =>
        match connect env fuel now st blocks with
        | .raised f st => .raised f st
        | .stopped b rest _ connected =>
          match rollbackBlockchainSwitching env fuel now connected disconnected st.db.height with
          | .error (f, st) => .raised f st
          | .ok st => .switchFailed (st.discardInvalid (b :: rest))
        | .all st =>
          match if discard then .ok st else pushDisconnected store st disconnected with
          | .error (f, st) => .raised f st
          | .ok st => .switched (st.removeAltBlocks blocks)

/-- The old blocks of a switch come back here; `depth` bounds how often. -/
def handleAlternativeBlock (env : Env) (fuel : Nat) (now : UInt64) : Nat → Blockchain → Block → AltOutcome
  | 0, st, _ => .raised .outOfFuel st
  | depth + 1, st, b =>
    match altHeader env.cfg st b with
    | .error (.inl why) => .refused why st
    | .error (.inr f) => .raised f st
    | .ok () =>
      if (st.altBlocks b.prevId).isNone ∧ ¬ st.db.blockExists b.prevId then .orphaned st
      else
        match storeAlternative env fuel st b with
        | .error (.inl why) => .refused why st
        | .error (.inr f) => .raised f st
        | .ok (kept, chain, ab) =>
          let switch := switchToAlternativeBlockchain env fuel now
            (handleAlternativeBlock env fuel now depth) kept chain
          if isACheckpoint env.cfg ab.height then switch true
          else if outweighs (currentGyro st.db) ab.cumulativeGyro then switch false
          else .stored kept

def connectChain (env : Env) (fuel : Nat) (now : UInt64) (st : Blockchain) (chain : List AltBlock) :
    Option Blockchain :=
  match chain with
  | [] => none
  | front :: _ =>
    match popUntil (fun db => db.topBlockHash = front.block.prevId) st.db.entries.length st [] with
    | .error _ => none
    | .ok (st, _) =>
      match connect env fuel now st (chain.map (·.block)) with
      | .all st => some st
      | _ => none

/-- The block is stored, its chain outweighs the main chain and is connected. -/
def switchByWeight (env : Env) (fuel : Nat) (now : UInt64) (st : Blockchain) (b : Block) :
    Option Blockchain :=
  match storeAlternative env fuel st b with
  | .error _ => none
  | .ok (kept, chain, ab) =>
    if isACheckpoint env.cfg ab.height then none
    else if outweighs (currentGyro st.db) ab.cumulativeGyro then connectChain env fuel now kept chain
    else none

section
variable {env : Env} {fuel depth : Nat} {now : UInt64} {st st' : Blockchain} {b : Block}
  {chain : List AltBlock} {discard : Bool} {store : Blockchain → Block → AltOutcome}

theorem switchByWeight_eq_some (h : switchByWeight env fuel now st b = some st') :
    ∃ kept chain ab, storeAlternative env fuel st b = .ok (kept, chain, ab) ∧
      outweighs (currentGyro st.db) ab.cumulativeGyro = true ∧ connectChain env fuel now kept chain = some st' := by
  unfold switchByWeight at h
  split at h
  · cases h
  · rename_i kept chain ab hs
    split at h
    · cases h
    · split at h
      · rename_i ho
        exact ⟨kept, chain, ab, hs, ho, h⟩
      · cases h

theorem switched_connects (h : switchToAlternativeBlockchain env fuel now store st chain discard = .switched st') :
    (connectChain env fuel now st chain).isSome = true := by
  unfold switchToAlternativeBlockchain at h
  split at h
  · cases h
  · dsimp only at h
    split at h
    · cases h
    · split at h
      · cases h
      · rename_i popped old hp
        split at h
        · cases h
        · split at h
          · cases h
          · cases h
        · rename_i connected hc
          unfold connectChain
          simp only [hp, hc]
          rfl

/-- Outside the checkpoints, a block that switches the chain does it by weight. -/
theorem handleAlternativeBlock_switched (h : handleAlternativeBlock env fuel now (depth + 1) st b = .switched st')
    (hc : ∀ kept chain ab, storeAlternative env fuel st b = .ok (kept, chain, ab) →
      isACheckpoint env.cfg ab.height = false) : (switchByWeight env fuel now st b).isSome = true := by
  unfold handleAlternativeBlock at h
  split at h
  · cases h
  · cases h
  · split at h
    · cases h
    · split at h
      · cases h
      · cases h
      · rename_i kept chain ab hs
        have hf := hc kept chain ab hs
        simp only [hf, Bool.false_eq_true, if_false] at h
        split at h
        · rename_i ho
          unfold switchByWeight
          simp only [hs, hf, ho, Bool.false_eq_true, if_false, if_true]
          exact switched_connects h
        · cases h

end

def haveBlock (st : Blockchain) (id : Hash) : Bool :=
  st.db.blockExists id || (st.altBlocks id).isSome || decide (id ∈ st.invalidBlocks)

/-- `add_new_block`: the state a new block leaves. Exceptions end here. -/
def addNewBlock (env : Env) (fuel depth : Nat) (now : UInt64) (st : Blockchain) (b : Block) :
    Blockchain :=
  if haveBlock st b.hash then { st with blocksTxsCheck := [] }
  else if b.prevId ≠ st.db.topBlockHash then
    match handleAlternativeBlock env fuel now depth st b with
    | .raised _ st => st
    | outcome => { outcome.state with blocksTxsCheck := [] }
  else
    match handleBlockToMainChain env fuel now st b with
    | .added st | .rejected _ st | .raised _ st => st

end Gyro
