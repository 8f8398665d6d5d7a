import Gyro.Db
import Gyro.Serialization

/-!
# The locked amount behind a spinner

`check_spinner_transaction_proof` and `calc_spinner_transaction_locked`: lock
transactions refer to earlier ones, and the amounts add up. The loop runs on fuel.
-/

namespace Gyro

inductive Fault where
  /-- A database read throws. -/
  | dbError
  | divisionByZero
  /-- A loop has not ended after as many rounds as were granted. -/
  | outOfFuel
  deriving DecidableEq, Repr

/-- The configuration, and signature, ring and input checks and the median weight, which are not
taken apart. -/
structure Env where
  cfg : Config
  checkSignature : Hash → PublicKey → Signature → Bool
  /-- The amount the pairs show to belong to the address; `none` when no pair verifies. -/
  checkTxKeys : Hash → Transaction → AccountPublicAddress → List ProofPair → Option UInt64
  /-- The inputs of a transaction, checked against the stored blocks at a wall-clock time. -/
  checkTxInputs : List BlockEntry → UInt64 → Transaction → Bool
  cumulWeightMedian : List BlockEntry → UInt64

section
variable (env : Env)

def checkSpinnerTransactionProof (txid : Hash) (tx : Transaction) (adr : AccountPublicAddress)
    (pairs : List ProofPair) : Option UInt64 :=
  if tx.txPubKeyFromExtra = nullPkey then none
  else if tx.additionalTxPubKeysFromExtra.length + 1 ≠ pairs.length then none
  else
    match env.checkTxKeys txid tx adr pairs with
    | none => none
    | some locked => if locked < env.cfg.spinnerAmountMinLock then none else some locked

def lockedTx (db : Db) (adr : AccountPublicAddress) (proof : SpinnerTxProof) :
    Option (Transaction × UInt64) :=
  match db.getTx proof.txid with
  | none => none
  | some tx =>
    if tx.unlockTime ≠ spinnedMoneyLockedBlocks then none
    else (checkSpinnerTransactionProof env proof.txid tx adr proof.pairs).map (tx, ·)

/-- Each transaction referred to adds its amount less the minimum lock; `none` is `return false`. -/
def lockedWalk (db : Db) (adr : AccountPublicAddress) :
    Nat → Transaction → List UInt64 → Except Fault (Option (List UInt64))
  | 0, _, _ => .error .outOfFuel
  | fuel + 1, tx, amounts =>
    match tx.spinTxProofFromExtra with
    | none => .ok (some amounts)
    | some data =>
      match parseSpinnerTxProof data with
      | none => .ok none
      | some proof =>
        match lockedTx env db adr proof with
        | none => .ok none
        | some (tx, amount) =>
          lockedWalk db adr fuel tx (amounts ++ [amount - env.cfg.spinnerAmountMinLock])

def calcSpinnerTransactionLocked (fuel : Nat) (db : Db) (nfo : SpinnerInfo) :
    Except Fault (Option UInt64) :=
  match lockedTx env db nfo.adr nfo.proof with
  | none => .ok none
  | some (tx, amount) => do
    let amounts ← lockedWalk env db nfo.adr fuel tx [amount]
    return amounts.map (·.foldl (· + ·) 0)

end

def Transaction.RefersTo (tx : Transaction) (id : Hash) : Prop :=
  ∃ data proof, tx.spinTxProofFromExtra = some data ∧ parseSpinnerTxProof data = some proof ∧
    proof.txid = id

/-- A hash commits to the hash it refers to, so the hashes can be ranked along the references. -/
def HashesCommit (db : Db) : Prop :=
  ∃ rank : Hash → Nat, ∀ tx ∈ db.allTxs, ∀ id, tx.RefersTo id → rank id < rank tx.hash

variable {env : Env} {db : Db} {adr : AccountPublicAddress}

theorem getTx_mem {id : Hash} {tx : Transaction} (h : db.getTx id = some tx) : tx ∈ db.allTxs ∧ tx.hash = id := by
  refine ⟨List.mem_of_find?_eq_some h, ?_⟩
  simpa using List.find?_some h

theorem lockedTx_mem {proof : SpinnerTxProof} {tx : Transaction} {amount : UInt64}
    (h : lockedTx env db adr proof = some (tx, amount)) : tx ∈ db.allTxs ∧ tx.hash = proof.txid := by
  unfold lockedTx at h
  split at h
  · cases h
  · rename_i tx' ht
    split at h
    · cases h
    · obtain ⟨a, _, ha⟩ := Option.map_eq_some_iff.mp h
      cases ha
      exact getTx_mem ht

theorem lockedWalk_ends {rank : Hash → Nat} (hr : ∀ tx ∈ db.allTxs, ∀ id, tx.RefersTo id → rank id < rank tx.hash) :
    ∀ {fuel : Nat} {tx : Transaction} (amounts : List UInt64), tx ∈ db.allTxs →
      rank tx.hash < fuel → lockedWalk env db adr fuel tx amounts ≠ .error .outOfFuel
  | 0, _, _, _, hf => by omega
  | fuel + 1, tx, amounts, hme, hf => by
    unfold lockedWalk
    split
    · simp
    · rename_i data hd
      split
      · simp
      · rename_i proof hp
        split
        · simp
        · rename_i tx' amount ht'
          obtain ⟨hm', hi⟩ := lockedTx_mem ht'
          have hl := hr tx hme proof.txid ⟨data, proof, hd, hp, rfl⟩
          rw [← hi] at hl
          exact lockedWalk_ends hr _ hm' (by omega)

theorem calcSpinnerTransactionLocked_ends (hd : HashesCommit db) (nfo : SpinnerInfo) : ∃ bound, ∀ fuel, bound ≤ fuel →
      calcSpinnerTransactionLocked env fuel db nfo ≠ .error .outOfFuel := by
  obtain ⟨rank, hr⟩ := hd
  refine ⟨rank nfo.proof.txid + 1, fun fuel hf => ?_⟩
  unfold calcSpinnerTransactionLocked
  split
  · simp
  · rename_i tx amount ht
    obtain ⟨hme, hi⟩ := lockedTx_mem ht
    have ha : lockedWalk env db nfo.adr fuel tx [amount] ≠ .error .outOfFuel :=
      lockedWalk_ends hr [amount] hme (by rw [hi]; omega)
    cases hre : lockedWalk env db nfo.adr fuel tx [amount] with
    | error f =>
      rw [hre] at ha
      simpa [Except.bind] using ha
    | ok amounts => simp [bind, Except.bind, pure, Except.pure]

end Gyro
