import Gyro.Locked

/-!
# Verifying a lock proof

`check_spinner_transaction_proof` and `check_tx_key_helper` in full. Nothing makes the
numbers of pairs, keys and outputs agree: an index past a vector's end is an
`IndexFault`.
-/

namespace Gyro

open List

abbrev KeyDerivation := BitVec 256
abbrev Scalar := BitVec 256

structure ProofCrypto where
  /-- `check_tx_proof` of a prefix hash, the view key, a transaction public key and a pair. -/
  checkTxProof : Hash → PublicKey → PublicKey → ProofPair → Bool
  /-- `generate_key_derivation` with the scalar one; `none` when the key is no curve point. -/
  generateKeyDerivation : PublicKey → Option KeyDerivation
  /-- Whether `derive_public_key` can decode the key it starts from. -/
  isPoint : PublicKey → Bool
  derivePublicKey : KeyDerivation → Nat → PublicKey → PublicKey
  derivationToScalar : KeyDerivation → Nat → Scalar
  ecdhDecode : EcdhTuple → Scalar → Bool → EcdhTuple
  scCheck : Scalar → Bool
  /-- `addKeys2` with the second generator. -/
  addKeys2 : Scalar → Scalar → PublicKey
  h2d : Scalar → UInt64
  /-- A proof is only checked for a key that decodes. -/
  proof_point : ∀ h a r p, checkTxProof h a r p = true → (generateKeyDerivation p.key).isSome = true

inductive Slot where
  | computed (d : KeyDerivation)
  | unset (d : KeyDerivation)
  deriving DecidableEq

def Slot.value : Slot → KeyDerivation
  | computed d => d
  | unset d => d

inductive IndexFault where
  | additionalDerivations (n : Nat)
  | ecdhInfo (n : Nat)
  | outPk (n : Nat)
  deriving DecidableEq

structure KeyCheck where
  ok : Bool
  received : UInt64
  uses : List Slot
  deriving DecidableEq

structure ProofRun where
  locked : Option UInt64
  uses : List Slot
  deriving DecidableEq

namespace ProofCrypto

section
variable (c : ProofCrypto) (tx : Transaction)

/-- The amount of an output under a derivation; `none` for a scalar that is not reduced. -/
def outputAmount (n : Nat) (amount : UInt64) (d : KeyDerivation) :
    Except IndexFault (Option UInt64) :=
  if tx.version = 1 ∨ tx.rctTypeNull then .ok (some amount)
  else
    match tx.rctSignatures.ecdhInfo[n]? with
    | none => .error (.ecdhInfo n)
    | some masked =>
      let ecdh := c.ecdhDecode masked (c.derivationToScalar d n)
        (tx.rctSignatures.type = .bulletproof2)
      match tx.rctSignatures.outPk[n]? with
      | none => .error (.outPk n)
      | some mask =>
        if ¬ c.scCheck ecdh.mask ∨ ¬ c.scCheck ecdh.amount then .ok none
        else .ok (some (if mask = c.addKeys2 ecdh.mask ecdh.amount then c.h2d ecdh.amount else 0))

section
variable (derivation : Slot) (additional : List Slot) (spend : PublicKey)

def findOutput (n : Nat) (key : PublicKey) : Except IndexFault (Option Slot × List Slot) :=
  if key = c.derivePublicKey derivation.value n spend then .ok (some derivation, [derivation])
  else if additional = [] then .ok (none, [derivation])
  else
    match additional[n]? with
    | none => .error (.additionalDerivations n)
    | some d =>
      .ok (if key = c.derivePublicKey d.value n spend then some d else none, [derivation, d])

/-- One round of the loop. Outputs that go to a script are skipped. -/
def checkOutput (n : Nat) (o : TxOut) (k : KeyCheck) : Except IndexFault KeyCheck :=
  match o.target with
  | .toKey key =>
    if c.isPoint spend then
      match c.findOutput derivation additional spend n key with
      | .error f => .error f
      | .ok (none, tried) => .ok { k with uses := k.uses ++ tried }
      | .ok (some d, tried) =>
        match c.outputAmount tx n o.amount d.value with
        | .error f => .error f
        | .ok none => .ok { k with ok := false, uses := k.uses ++ tried }
        | .ok (some amount) =>
          .ok { k with received := k.received + amount, uses := k.uses ++ tried }
    else .ok { k with ok := false }
  | _ => .ok k

def checkOutputs : Nat → List TxOut → KeyCheck → Except IndexFault KeyCheck
  | _, [], k => .ok k
  | n, o :: os, k =>
    match c.checkOutput tx derivation additional spend n o k with
    | .error f => .error f
    | .ok k => if k.ok then checkOutputs (n + 1) os k else .ok k

def checkTxKeyHelper : Except IndexFault KeyCheck :=
  c.checkOutputs tx derivation additional spend 0 tx.vout { ok := true, received := 0, uses := [] }

end

section
variable (txid : Hash) (adr : AccountPublicAddress) (pairs : List ProofPair) (message : Blob)

def goodSignatures : List Bool :=
  List.zipWith (c.checkTxProof (cnFastHash (hashBytes txid ++ message)) adr.viewPublicKey)
    (tx.txPubKeyFromExtra :: tx.additionalTxPubKeysFromExtra) pairs

/-- The derivation from a pair, or what the variable held when the signature is not good. -/
def slotOf (held : KeyDerivation) (good : Bool) (p : ProofPair) : Option Slot :=
  if good then (c.generateKeyDerivation p.key).map .computed else some (.unset held)

def additionalSlots : List Bool → List ProofPair → Option (List Slot)
  | good :: goods, p :: ps => do
    let s ← c.slotOf 0 good p
    let ss ← additionalSlots goods ps
    return s :: ss
  | _, _ => some []

/-- `check_spinner_transaction_proof`; `stack` is what the uninitialised
`derivation` holds. -/
def checkSpinnerTransactionProof (minLock : UInt64) (stack : KeyDerivation) :
    Except IndexFault ProofRun :=
  if tx.txPubKeyFromExtra = nullPkey then .ok { locked := none, uses := [] }
  else if tx.additionalTxPubKeysFromExtra.length + 1 ≠ pairs.length then
    .ok { locked := none, uses := [] }
  else
    match c.goodSignatures tx txid adr pairs message, pairs with
    | good :: goods, p :: ps =>
      if (good :: goods).any id then
        match c.slotOf stack good p, c.additionalSlots goods ps with
        | some derivation, some additional =>
          match c.checkTxKeyHelper tx derivation additional adr.spendPublicKey with
          | .error f => .error f
          | .ok k =>
            .ok { locked := if k.ok ∧ ¬ k.received < minLock then some k.received else none
                  uses := k.uses }
        | _, _ => .ok { locked := none, uses := [] }
      else .ok { locked := none, uses := [] }
    -- the sizes agree, so neither list is empty
    | _, _ => .ok { locked := none, uses := [] }

end

end

/-! ## What a proof shows -/

section
variable (c : ProofCrypto) (tx : Transaction) (txid : Hash) (adr : AccountPublicAddress)
  (pairs : List ProofPair) (message : Blob)

def verifiedDerivation (i : Nat) : Option KeyDerivation :=
  match (c.goodSignatures tx txid adr pairs message)[i]?, pairs[i]? with
  | some true, some p => c.generateKeyDerivation p.key
  | _, _ => none

/-- The derivation under which output `n` is the address's: of the transaction's key or of the
additional key `n`. -/
def provenBy (n : Nat) (key : PublicKey) : Option KeyDerivation :=
  ([0, n + 1].filterMap (c.verifiedDerivation tx txid adr pairs message)).find? fun d =>
    key = c.derivePublicKey d n adr.spendPublicKey

def amountUnder (n : Nat) (amount : UInt64) (d : KeyDerivation) : UInt64 :=
  match c.outputAmount tx n amount d with
  | .ok (some a) => a
  | _ => 0

def provenAmount (n : Nat) (o : TxOut) : Nat :=
  match o.target with
  | .toKey key =>
    match c.provenBy tx txid adr pairs message n key with
    | some d => (c.amountUnder tx n o.amount d).toNat
    | none => 0
  | _ => 0

def provenTotalFrom : Nat → List TxOut → Nat
  | _, [] => 0
  | n, o :: os => c.provenAmount tx txid adr pairs message n o + provenTotalFrom (n + 1) os

def provenTotal : Nat := c.provenTotalFrom tx txid adr pairs message 0 tx.vout

def VerifiedSlot (s : Slot) : Prop :=
  ∃ i d, c.verifiedDerivation tx txid adr pairs message i = some d ∧ s = .computed d

/-- No index is out of range, only derivations of good pairs are used, and the amount is the exact
sum over the proven outputs. -/
def SafeCall (result : Except IndexFault ProofRun) : Prop :=
  ∃ run, result = .ok run ∧ (∀ s ∈ run.uses, c.VerifiedSlot tx txid adr pairs message s) ∧
    ∀ locked, run.locked = some locked → locked.toNat = c.provenTotal tx txid adr pairs message

structure ReachesOutputs : Prop where
  key : tx.txPubKeyFromExtra ≠ nullPkey
  sizes : tx.additionalTxPubKeysFromExtra.length + 1 = pairs.length
  good : true ∈ c.goodSignatures tx txid adr pairs message
  point : c.isPoint adr.spendPublicKey = true

/-- The first pair is good, and an output it does not explain has a good pair of its own. -/
def CoveredOutput (n : Nat) (key : PublicKey) : Prop :=
  ∃ d, c.verifiedDerivation tx txid adr pairs message 0 = some d ∧
    (tx.additionalTxPubKeysFromExtra ≠ [] → key ≠ c.derivePublicKey d n adr.spendPublicKey →
      (c.verifiedDerivation tx txid adr pairs message (n + 1)).isSome = true)

def CoversOutputs : Prop :=
  c.ReachesOutputs tx txid adr pairs message →
    ∀ (n : Nat) (o : TxOut) (key : PublicKey), tx.vout[n]? = some o → o.target = .toKey key →
      c.CoveredOutput tx txid adr pairs message n key

/-- One ring signature entry for each output, with reduced scalars. -/
structure RctRead : Prop where
  ecdhInfo : tx.rctTypeNull = false → tx.rctSignatures.ecdhInfo.length = tx.vout.length
  outPk : tx.rctTypeNull = false → tx.rctSignatures.outPk.length = tx.vout.length
  reduced : ∀ e ∈ tx.rctSignatures.ecdhInfo, ∀ s,
    let ecdh := c.ecdhDecode e s (tx.rctSignatures.type = .bulletproof2)
    c.scCheck ecdh.mask = true ∧ c.scCheck ecdh.amount = true

end

end ProofCrypto

/-- The slot holds the derivation, if there is one, and was never set otherwise. -/
def Slot.Of (v : Option KeyDerivation) : Slot → Prop
  | .computed d => v = some d
  | .unset _ => v = none

namespace ProofCrypto

section
variable {c : ProofCrypto} {tx : Transaction} {txid : Hash} {adr : AccountPublicAddress}
  {pairs : List ProofPair} {message : Blob}

theorem outputAmount_read (h : c.RctRead tx) {n : Nat} {o : TxOut} (ho : tx.vout[n]? = some o) (d : KeyDerivation) :
    c.outputAmount tx n o.amount d = .ok (some (c.amountUnder tx n o.amount d)) := by
  have hs : ∃ a, c.outputAmount tx n o.amount d = .ok (some a) := by
    unfold outputAmount
    by_cases hp : tx.version = 1 ∨ tx.rctTypeNull = true
    · rw [if_pos hp]
      exact ⟨_, rfl⟩
    · rw [if_neg hp]
      simp only [not_or, Bool.not_eq_true] at hp
      have hn := (List.getElem?_eq_some_iff.mp ho).1
      have hc : n < tx.rctSignatures.ecdhInfo.length := by rw [h.ecdhInfo hp.2]; exact hn
      have hk : n < tx.rctSignatures.outPk.length := by rw [h.outPk hp.2]; exact hn
      simp only [List.getElem?_eq_getElem hc, List.getElem?_eq_getElem hk]
      have hr := h.reduced _ (getElem_mem hc) (c.derivationToScalar d n)
      rw [if_neg (by simp [hr.1, hr.2])]
      exact ⟨_, rfl⟩
  obtain ⟨a, ha⟩ := hs
  rw [amountUnder, ha]

/-! ## The slots of a call -/

variable {p : ProofPair}

theorem slotOf_of {held : KeyDerivation} {good : Bool} {s : Slot} (h : c.slotOf held good p = some s) :
    s.Of (if good then c.generateKeyDerivation p.key else none) := by
  cases good with
  | false =>
    cases h
    rfl
  | true =>
    obtain ⟨d, hd, rfl⟩ := Option.map_eq_some_iff.mp h
    exact hd

variable {ps : List ProofPair} {goods : List Bool}

theorem additionalSlots_length {ss : List Slot}
    (h : c.additionalSlots goods ps = some ss) : ss.length = min goods.length ps.length := by
  induction goods generalizing ps ss with
  | nil =>
    cases h
    simp
  | cons good goods ih =>
    cases ps with
    | nil =>
      cases h
      rfl
    | cons p ps =>
      simp only [additionalSlots, Option.bind_eq_bind, Option.bind_eq_some_iff] at h
      obtain ⟨s, _, ss', hs', hc⟩ := h
      cases hc
      simp only [length_cons, ih hs']
      omega

theorem additionalSlots_of {ss : List Slot}
    (h : c.additionalSlots goods ps = some ss) {n : Nat} {s : Slot} (hs : ss[n]? = some s) :
    ∃ good p, goods[n]? = some good ∧ ps[n]? = some p ∧
      s.Of (if good then c.generateKeyDerivation p.key else none) := by
  induction goods generalizing ps ss n with
  | nil =>
    cases h
    simp at hs
  | cons good goods ih =>
    cases ps with
    | nil =>
      cases h
      simp at hs
    | cons p ps =>
      simp only [additionalSlots, Option.bind_eq_bind, Option.bind_eq_some_iff] at h
      obtain ⟨s', hs', ss', hss', hc⟩ := h
      cases hc
      cases n with
      | zero =>
        cases hs
        exact ⟨good, p, rfl, rfl, slotOf_of hs'⟩
      | succ n => exact ih hss' hs

theorem additionalSlots_isSome (h : ∀ (n : Nat) (p : ProofPair), goods[n]? = some true → ps[n]? = some p →
      (c.generateKeyDerivation p.key).isSome = true) : (c.additionalSlots goods ps).isSome = true := by
  induction goods generalizing ps with
  | nil => rfl
  | cons good goods ih =>
    cases ps with
    | nil => rfl
    | cons p ps =>
      have hr : (c.additionalSlots goods ps).isSome = true :=
        ih fun n q hg hq => h (n + 1) q hg hq
      obtain ⟨ss, hs⟩ := Option.isSome_iff_exists.mp hr
      cases good with
      | false => simp [additionalSlots, slotOf, hs]
      | true =>
        obtain ⟨d, hd⟩ := Option.isSome_iff_exists.mp (h 0 p rfl rfl)
        simp [additionalSlots, slotOf, hs, hd]

theorem good_point {n : Nat}
    (hg : (c.goodSignatures tx txid adr pairs message)[n]? = some true) (hp : pairs[n]? = some p) :
    (c.generateKeyDerivation p.key).isSome = true := by
  rw [goodSignatures, List.getElem?_zipWith_eq_some] at hg
  obtain ⟨r, q, _, hq, hc⟩ := hg
  cases hp.symm.trans hq
  exact c.proof_point _ _ _ _ hc

structure Holds (c : ProofCrypto) (tx : Transaction) (txid : Hash) (adr : AccountPublicAddress)
    (pairs : List ProofPair) (message : Blob) (derivation : Slot) (additional : List Slot) : Prop where
  main : derivation.Of (c.verifiedDerivation tx txid adr pairs message 0)
  more : ∀ (n : Nat) (s : Slot), additional[n]? = some s →
    s.Of (c.verifiedDerivation tx txid adr pairs message (n + 1))
  size : additional.length = tx.additionalTxPubKeysFromExtra.length

theorem verifiedDerivation_eq {i : Nat} {good : Bool}
    (hg : (c.goodSignatures tx txid adr pairs message)[i]? = some good) (hp : pairs[i]? = some p) :
    c.verifiedDerivation tx txid adr pairs message i = if good then c.generateKeyDerivation p.key else none := by
  unfold verifiedDerivation
  rw [hg, hp]
  cases good <;> rfl

variable {stack : KeyDerivation}

theorem call_reaches (hk : tx.txPubKeyFromExtra ≠ nullPkey)
    (hi : tx.additionalTxPubKeysFromExtra.length + 1 = pairs.length)
    (hn : true ∈ c.goodSignatures tx txid adr pairs message) :
    ∃ derivation additional, Holds c tx txid adr pairs message derivation additional ∧
      ∀ minLock, c.checkSpinnerTransactionProof tx txid adr pairs message minLock stack =
        (c.checkTxKeyHelper tx derivation additional adr.spendPublicKey).map fun k =>
          { locked := if k.ok ∧ ¬ k.received < minLock then some k.received else none
            uses := k.uses } := by
  cases pairs with
  | nil => simp at hi
  | cons p ps =>
    obtain ⟨good, goods, ho⟩ : ∃ good goods,
        c.goodSignatures tx txid adr (p :: ps) message = good :: goods := ⟨_, _, rfl⟩
    have hl : goods.length = tx.additionalTxPubKeysFromExtra.length := by
      have hc := congrArg List.length ho
      simp only [goodSignatures, length_zipWith, length_cons] at hc hi
      omega
    obtain ⟨derivation, hma⟩ : ∃ derivation, c.slotOf stack good p = some derivation := by
      cases good with
      | false => exact ⟨_, rfl⟩
      | true =>
        obtain ⟨d, hd⟩ := Option.isSome_iff_exists.mp (good_point (n := 0) (by rw [ho]; rfl) rfl)
        exact ⟨.computed d, by simp [slotOf, hd]⟩
    have hmo : (c.additionalSlots goods ps).isSome = true :=
      additionalSlots_isSome fun n q hg hq =>
        good_point (n := n + 1) (by rw [ho]; exact hg) hq
    obtain ⟨additional, ha⟩ := Option.isSome_iff_exists.mp hmo
    refine ⟨derivation, additional, ⟨?_, ?_, ?_⟩, ?_⟩
    · rw [verifiedDerivation_eq (i := 0) (by rw [ho]; rfl) rfl]
      exact slotOf_of hma
    · intro n s hs
      obtain ⟨g, q, hg, hq, hf⟩ := additionalSlots_of ha hs
      rw [verifiedDerivation_eq (i := n + 1) (by rw [ho]; exact hg) hq]
      exact hf
    · simp only [length_cons] at hi
      rw [additionalSlots_length ha]
      omega
    · intro minLock
      unfold checkSpinnerTransactionProof
      rw [if_neg hk, if_neg (by simpa using hi)]
      rw [ho] at hn ⊢
      have hso : (good :: goods).any id = true := any_eq_true.mpr ⟨true, hn, rfl⟩
      simp only [hso, if_true, hma, ha]
      cases c.checkTxKeyHelper tx derivation additional adr.spendPublicKey <;> rfl

variable {minLock : UInt64}

theorem call_stops (h : tx.txPubKeyFromExtra = nullPkey ∨ tx.additionalTxPubKeysFromExtra.length + 1 ≠ pairs.length ∨
      true ∉ c.goodSignatures tx txid adr pairs message) :
    c.checkSpinnerTransactionProof tx txid adr pairs message minLock stack =
      .ok { locked := none, uses := [] } := by
  unfold checkSpinnerTransactionProof
  split
  · rfl
  · rename_i hk
    split
    · rfl
    · rename_i hs
      split
      · rename_i good goods p ps ho
        have hn : (good :: goods).any id = false := by
          rw [← Bool.not_eq_true, any_eq_true]
          rintro ⟨g, hg, hi⟩
          obtain h | h | h := h
          · exact hk h
          · exact hs h
          · cases (id hi : g = true)
            exact h (ho ▸ hg)
        rw [hn]
        rfl
      · rfl

/-! ## The loop over the outputs -/

section
variable {derivation : Slot} {additional : List Slot}

theorem verifiedDerivation_le {i : Nat} (h : (c.verifiedDerivation tx txid adr pairs message i).isSome = true) :
    i ≤ tx.additionalTxPubKeysFromExtra.length := by
  unfold verifiedDerivation at h
  split at h
  · rename_i hg _
    have hi := (List.getElem?_eq_some_iff.mp hg).1
    simp only [goodSignatures, length_zipWith, length_cons] at hi
    omega
  · cases h

theorem VerifiedSlot.of {s : Slot} {i : Nat} {d : KeyDerivation}
    (h : s.Of (c.verifiedDerivation tx txid adr pairs message i))
    (hd : c.verifiedDerivation tx txid adr pairs message i = some d) :
    s = .computed d ∧ c.VerifiedSlot tx txid adr pairs message s := by
  cases s with
  | computed d' =>
    cases hd.symm.trans h
    exact ⟨rfl, i, d, hd, rfl⟩
  | unset d' => cases hd.symm.trans h

theorem VerifiedSlot.isSome {s : Slot} {v : Option KeyDerivation} (ho : s.Of v)
    (h : c.VerifiedSlot tx txid adr pairs message s) : v.isSome = true := by
  obtain ⟨i, d, _, rfl⟩ := h
  rw [ho]
  rfl

variable {n : Nat}

theorem findOutput_covered (hl : Holds c tx txid adr pairs message derivation additional)
    {key : PublicKey} (hc : c.CoveredOutput tx txid adr pairs message n key) :
    ∃ tried, (∀ s ∈ tried, c.VerifiedSlot tx txid adr pairs message s) ∧
      c.findOutput derivation additional adr.spendPublicKey n key =
        .ok ((c.provenBy tx txid adr pairs message n key).map .computed, tried) := by
  obtain ⟨d, hd, hmo⟩ := hc
  obtain ⟨rfl, ha⟩ := VerifiedSlot.of hl.main hd
  unfold findOutput provenBy
  by_cases hk : key = c.derivePublicKey d n adr.spendPublicKey
  · refine ⟨[.computed d], by simpa using ha, ?_⟩
    simp [Slot.value, hd, ← hk]
  · by_cases hem : additional = []
    · have hno : c.verifiedDerivation tx txid adr pairs message (n + 1) = none := by
        rw [← Option.not_isSome_iff_eq_none]
        intro ho
        have hle := verifiedDerivation_le ho
        rw [← hl.size, hem] at hle
        simp at hle
      refine ⟨[.computed d], by simpa using ha, ?_⟩
      simp [Slot.value, hd, hk, hem, hno]
    · have hy : tx.additionalTxPubKeysFromExtra ≠ [] := by
        intro hi
        apply hem
        rw [← length_eq_zero_iff, hl.size, hi]
        rfl
      have ho := hmo hy hk
      obtain ⟨d', hd'⟩ := Option.isSome_iff_exists.mp ho
      have hn : n < additional.length := by
        have hle := verifiedDerivation_le ho
        rw [hl.size]
        omega
      have hs := List.getElem?_eq_getElem hn
      obtain ⟨heq, hv⟩ := VerifiedSlot.of (hl.more n _ hs) hd'
      rw [heq] at hs hv
      refine ⟨[.computed d, .computed d'], by simp [ha, hv], ?_⟩
      by_cases hk' : key = c.derivePublicKey d' n adr.spendPublicKey
      · simp [Slot.value, hd, hd', hk, hem, hs, ← hk']
      · simp [Slot.value, hd, hd', hk, hem, hs, hk']

theorem checkOutput_covered (hs : Holds c tx txid adr pairs message derivation additional)
    (hp : c.isPoint adr.spendPublicKey = true) (hr : c.RctRead tx) {o : TxOut} (ho : tx.vout[n]? = some o)
    (hc : ∀ key, o.target = .toKey key → c.CoveredOutput tx txid adr pairs message n key) (k : KeyCheck) :
    ∃ tried, (∀ s ∈ tried, c.VerifiedSlot tx txid adr pairs message s) ∧
      c.checkOutput tx derivation additional adr.spendPublicKey n o k = .ok { k with
          received := k.received + UInt64.ofNat (c.provenAmount tx txid adr pairs message n o)
          uses := k.uses ++ tried } := by
  unfold checkOutput provenAmount
  cases ht : o.target with
  | toScript => exact ⟨[], by simp, by simp⟩
  | toScripthash => exact ⟨[], by simp, by simp⟩
  | toKey key =>
    obtain ⟨tried, htr, hf⟩ := findOutput_covered hs (hc key ht)
    refine ⟨tried, htr, ?_⟩
    simp only [hp, if_true, hf]
    cases c.provenBy tx txid adr pairs message n key with
    | none => simp
    | some d => simp [Slot.value, outputAmount_read hr ho d]

theorem checkOutputs_covered (hl : Holds c tx txid adr pairs message derivation additional)
    (hp : c.isPoint adr.spendPublicKey = true) (hr : c.RctRead tx) {os : List TxOut}
    (hos : ∀ (j : Nat) (o : TxOut), os[j]? = some o → tx.vout[n + j]? = some o ∧
      ∀ key, o.target = .toKey key → c.CoveredOutput tx txid adr pairs message (n + j) key)
    (received : UInt64) (uses : List Slot) : ∃ tried, (∀ s ∈ tried, c.VerifiedSlot tx txid adr pairs message s) ∧
      c.checkOutputs tx derivation additional adr.spendPublicKey n os ⟨true, received, uses⟩ =
        .ok ⟨true, received + UInt64.ofNat (c.provenTotalFrom tx txid adr pairs message n os), uses ++ tried⟩ := by
  induction os generalizing n received uses with
  | nil => exact ⟨[], by simp, by simp [checkOutputs, provenTotalFrom]⟩
  | cons o os ih =>
    obtain ⟨ho, hc⟩ := hos 0 o rfl
    rw [Nat.add_zero] at ho hc
    obtain ⟨tried, ht, hst⟩ :=
      checkOutput_covered hl hp hr ho hc ⟨true, received, uses⟩
    have hrs : ∀ (j : Nat) (o' : TxOut), os[j]? = some o' → tx.vout[n + 1 + j]? = some o' ∧
        ∀ key, o'.target = .toKey key → c.CoveredOutput tx txid adr pairs message (n + 1 + j) key := by
      intro j o' ho'
      rw [Nat.add_assoc, Nat.add_comm 1 j]
      exact hos (j + 1) o' ho'
    obtain ⟨tried', ht', hlo⟩ := ih hrs
      (received + UInt64.ofNat (c.provenAmount tx txid adr pairs message n o)) (uses ++ tried)
    refine ⟨tried ++ tried', ?_, ?_⟩
    · intro s hs
      exact (mem_append.mp hs).elim (ht s) (ht' s)
    · simp only [checkOutputs, hst, if_true, hlo, provenTotalFrom, UInt64.ofNat_add,
        UInt64.add_assoc, append_assoc]

theorem findOutput_tries {key : PublicKey} {found : Option Slot} {tried : List Slot}
    (h : c.findOutput derivation additional adr.spendPublicKey n key = .ok (found, tried)) :
    derivation ∈ tried ∧ (additional ≠ [] → key ≠ c.derivePublicKey derivation.value n adr.spendPublicKey →
        ∃ s, additional[n]? = some s ∧ s ∈ tried) := by
  unfold findOutput at h
  split at h
  · rename_i hk
    cases h
    exact ⟨by simp, fun _ hn => absurd hk hn⟩
  · split at h
    · rename_i hem
      cases h
      exact ⟨by simp, fun hn => absurd hem hn⟩
    · split at h
      · cases h
      · rename_i d hd
        cases h
        exact ⟨by simp, fun _ _ => ⟨d, hd, by simp⟩⟩

theorem checkOutput_uses (hp : c.isPoint adr.spendPublicKey = true) (hr : c.RctRead tx)
    {o : TxOut} (ho : tx.vout[n]? = some o) {k k' : KeyCheck}
    (h : c.checkOutput tx derivation additional adr.spendPublicKey n o k = .ok k') :
    k'.ok = k.ok ∧ (∀ s ∈ k.uses, s ∈ k'.uses) ∧ ∀ key, o.target = .toKey key → derivation ∈ k'.uses ∧
        (additional ≠ [] → key ≠ c.derivePublicKey derivation.value n adr.spendPublicKey →
          ∃ s, additional[n]? = some s ∧ s ∈ k'.uses) := by
  unfold checkOutput at h
  cases ht : o.target with
  | toScript =>
    rw [ht] at h
    cases h
    simp
  | toScripthash =>
    rw [ht] at h
    cases h
    simp
  | toKey key =>
    rw [ht] at h
    simp only [hp, if_true] at h
    cases hf : c.findOutput derivation additional adr.spendPublicKey n key with
    | error f =>
      rw [hf] at h
      cases h
    | ok r =>
      obtain ⟨found, tried⟩ := r
      have hts := findOutput_tries hf
      have hk' : k'.ok = k.ok ∧ k'.uses = k.uses ++ tried := by
        rw [hf] at h
        cases found with
        | none =>
          cases h
          exact ⟨rfl, rfl⟩
        | some d =>
          simp only [outputAmount_read hr ho d.value] at h
          cases h
          exact ⟨rfl, rfl⟩
      refine ⟨hk'.1, fun s hs => by simp [hk'.2, hs], fun key' he' => ?_⟩
      cases he'
      refine ⟨by simp [hk'.2, hts.1], fun hmo hn => ?_⟩
      obtain ⟨s, hs, hme⟩ := hts.2 hmo hn
      exact ⟨s, hs, by simp [hk'.2, hme]⟩

theorem checkOutputs_uses (hp : c.isPoint adr.spendPublicKey = true) (hr : c.RctRead tx)
    {os : List TxOut} (hos : ∀ (j : Nat) (o : TxOut), os[j]? = some o → tx.vout[n + j]? = some o)
    {k k' : KeyCheck} (hk : k.ok = true)
    (h : c.checkOutputs tx derivation additional adr.spendPublicKey n os k = .ok k') : (∀ s ∈ k.uses, s ∈ k'.uses) ∧
      ∀ (j : Nat) (o : TxOut) (key : PublicKey), os[j]? = some o → o.target = .toKey key → derivation ∈ k'.uses ∧
          (additional ≠ [] → key ≠ c.derivePublicKey derivation.value (n + j) adr.spendPublicKey →
            ∃ s, additional[n + j]? = some s ∧ s ∈ k'.uses) := by
  induction os generalizing n k with
  | nil =>
    cases h
    exact ⟨fun _ hs => hs, fun j o key ho => by simp at ho⟩
  | cons o os ih =>
    unfold checkOutputs at h
    split at h
    · cases h
    · rename_i k₁ hst
      have ho : tx.vout[n]? = some o := hos 0 o rfl
      obtain ⟨hok, hn, hu⟩ := checkOutput_uses hp hr ho hst
      rw [if_pos (hok.trans hk)] at h
      have hrs : ∀ (j : Nat) (o' : TxOut), os[j]? = some o' → tx.vout[n + 1 + j]? = some o' := by
        intro j o' ho'
        rw [Nat.add_assoc, Nat.add_comm 1 j]
        exact hos (j + 1) o' ho'
      obtain ⟨hm', hu'⟩ := ih hrs (hok.trans hk) h
      refine ⟨fun s hs => hm' s (hn s hs), fun j o' key ho' ht => ?_⟩
      cases j with
      | zero =>
        cases ho'
        obtain ⟨ha, hmo⟩ := hu key ht
        refine ⟨hm' _ ha, fun hne hke => ?_⟩
        obtain ⟨s, hs, hme⟩ := hmo hne hke
        exact ⟨s, hs, hm' s hme⟩
      | succ j =>
        rw [← Nat.add_assoc, Nat.add_right_comm]
        exact hu' j o' key ho' ht

theorem checkOutputs_no_point (hp : c.isPoint adr.spendPublicKey = false) (n : Nat) (os : List TxOut)
    (received : UInt64) (uses : List Slot) :
    ∃ ok, c.checkOutputs tx derivation additional adr.spendPublicKey n os ⟨true, received, uses⟩ =
        .ok ⟨ok, received, uses⟩ ∧ (ok = true → c.provenTotalFrom tx txid adr pairs message n os = 0) := by
  induction os generalizing n with
  | nil => exact ⟨true, rfl, fun _ => rfl⟩
  | cons o os ih =>
    obtain ⟨ok, hl, hzero⟩ := ih (n + 1)
    cases ht : o.target with
    | toScript | toScripthash =>
      refine ⟨ok, by simp [checkOutputs, checkOutput, ht, hl], fun ho => ?_⟩
      simp [provenTotalFrom, provenAmount, ht, hzero ho]
    | toKey key =>
      exact ⟨false, by simp [checkOutputs, checkOutput, ht, hp], fun h => by cases h⟩

end

theorem covers_of_safe (hre : c.RctRead tx) (ha : c.SafeCall tx txid adr pairs message
      (c.checkSpinnerTransactionProof tx txid adr pairs message minLock stack)) :
    c.CoversOutputs tx txid adr pairs message := by
  intro hr n o key ho ht
  obtain ⟨run, hu, hus, _⟩ := ha
  obtain ⟨derivation, additional, hl, hc⟩ := call_reaches hr.key hr.sizes hr.good
  rw [hc] at hu
  cases hh : c.checkTxKeyHelper tx derivation additional adr.spendPublicKey with
  | error f =>
    rw [hh] at hu
    cases hu
  | ok k =>
    rw [hh] at hu
    cases hu
    obtain ⟨_, hou⟩ := checkOutputs_uses hr.point hre
      (fun j o ho => by rw [Nat.zero_add]; exact ho) rfl hh
    obtain ⟨hma, hmo⟩ := hou n o key ho ht
    rw [Nat.zero_add] at hmo
    obtain ⟨d, hd⟩ := Option.isSome_iff_exists.mp (VerifiedSlot.isSome hl.main (hus _ hma))
    obtain ⟨rfl, _⟩ := VerifiedSlot.of hl.main hd
    refine ⟨d, hd, fun hk hke => ?_⟩
    have hn : additional ≠ [] := by
      intro hi
      apply hk
      rw [← length_eq_zero_iff, ← hl.size, hi]
      rfl
    obtain ⟨s, hs, hme⟩ := hmo hn hke
    exact VerifiedSlot.isSome (hl.more n s hs) (hus s hme)

/-- A helper that uses verified derivations only and adds up what is proven
makes the call safe. -/
theorem safeCall_of_helper {k : KeyCheck} (hu : ∀ s ∈ k.uses, c.VerifiedSlot tx txid adr pairs message s)
    (hx : k.ok = true → k.received.toNat = c.provenTotal tx txid adr pairs message) :
    c.SafeCall tx txid adr pairs message
      (.ok { locked := if k.ok ∧ ¬ k.received < minLock then some k.received else none
             uses := k.uses }) := by
  refine ⟨_, rfl, hu, fun locked hl => ?_⟩
  split at hl
  · rename_i ho
    cases hl
    exact hx ho.1
  · cases hl

theorem safe_of_covers (hre : c.RctRead tx) (hf : c.provenTotal tx txid adr pairs message < 2 ^ 64)
    (hc : c.CoversOutputs tx txid adr pairs message) : c.SafeCall tx txid adr pairs message
      (c.checkSpinnerTransactionProof tx txid adr pairs message minLock stack) := by
  by_cases hr : tx.txPubKeyFromExtra ≠ nullPkey ∧
      tx.additionalTxPubKeysFromExtra.length + 1 = pairs.length ∧
      true ∈ c.goodSignatures tx txid adr pairs message
  · obtain ⟨hk, hs, hg⟩ := hr
    obtain ⟨derivation, additional, hsl, ha⟩ := call_reaches hk hs hg
    rw [ha, checkTxKeyHelper]
    cases hp : c.isPoint adr.spendPublicKey with
    | false =>
      obtain ⟨ok, hl, hzero⟩ := @checkOutputs_no_point c tx txid adr pairs message derivation
        additional hp 0 tx.vout 0 []
      rw [hl]
      apply safeCall_of_helper
      · simp
      · intro hok
        exact (hzero hok).symm
    | true =>
      have hos : ∀ (j : Nat) (o : TxOut), tx.vout[j]? = some o → tx.vout[0 + j]? = some o ∧
          ∀ key, o.target = .toKey key → c.CoveredOutput tx txid adr pairs message (0 + j) key := by
        intro j o ho
        rw [Nat.zero_add]
        exact ⟨ho, fun key => hc ⟨hk, hs, hg, hp⟩ j o key ho⟩
      obtain ⟨tried, ht, hl⟩ := checkOutputs_covered hsl hp hre hos 0 []
      rw [hl]
      apply safeCall_of_helper
      · simpa using ht
      · intro _
        rw [UInt64.zero_add]
        exact UInt64.toNat_ofNat_of_lt' hf
  · rw [call_stops (by simpa only [not_and_or, not_not] using hr)]
    exact ⟨_, rfl, by simp, by simp⟩

/-- Verification is safe and exact precisely if the derivations of the good pairs cover the outputs.
-/
theorem lock_proof_safe_iff (hread : c.RctRead tx)
    (hfits : c.provenTotal tx txid adr pairs message < 2 ^ 64) (minLock : UInt64) (stack : KeyDerivation) :
    c.SafeCall tx txid adr pairs message (c.checkSpinnerTransactionProof tx txid adr pairs message minLock stack) ↔
      c.CoversOutputs tx txid adr pairs message :=
  ⟨covers_of_safe hread, safe_of_covers hread hfits⟩

/-- The pairs of a proof as the chain's checks see them: an index out of range is no amount. -/
def checkTxKeys (c : ProofCrypto) (stack : KeyDerivation) (txid : Hash) (tx : Transaction)
    (adr : AccountPublicAddress) (pairs : List ProofPair) : Option UInt64 :=
  match c.checkSpinnerTransactionProof tx txid adr pairs [] 0 stack with
  | .ok run => run.locked
  | .error _ => none

/-- A node whose checks are these reads the total off a proof that the call without a message gives. -/
theorem checkSpinnerTransactionProof_eq (env : Env) (txid : Hash) (tx : Transaction) (adr : AccountPublicAddress)
    (pairs : List ProofPair) :
    Gyro.checkSpinnerTransactionProof { env with checkTxKeys := c.checkTxKeys stack } txid tx adr pairs =
      match c.checkSpinnerTransactionProof tx txid adr pairs [] env.cfg.spinnerAmountMinLock stack with
      | .ok run => run.locked
      | .error _ => none := by
  unfold Gyro.checkSpinnerTransactionProof checkTxKeys
  dsimp only
  by_cases hr : tx.txPubKeyFromExtra ≠ nullPkey ∧
      tx.additionalTxPubKeysFromExtra.length + 1 = pairs.length ∧
      true ∈ c.goodSignatures tx txid adr pairs []
  · obtain ⟨hk, hi, hg⟩ := hr
    rw [if_neg hk, if_neg (not_not.mpr hi)]
    obtain ⟨derivation, additional, _, hc⟩ := call_reaches hk hi hg
    rw [hc, hc]
    cases c.checkTxKeyHelper tx derivation additional adr.spendPublicKey with
    | error f => rfl
    | ok k =>
      cases ho : k.ok with
      | false => simp [Except.map, ho]
      | true => by_cases hmi : k.received < env.cfg.spinnerAmountMinLock <;>
          simp [Except.map, ho, hmi]
  · have hs := hr
    simp only [not_and_or, ne_eq, not_not] at hs
    rw [call_stops hs, call_stops hs]
    split_ifs <;> rfl

end

end ProofCrypto

namespace Sample

def proofCrypto : ProofCrypto where
  checkTxProof _ _ _ p := p.sig = 1
  generateKeyDerivation k := some k
  isPoint _ := true
  derivePublicKey d n base := d + BitVec.ofNat 256 n + base
  derivationToScalar d _ := d
  ecdhDecode e _ _ := e
  scCheck _ := true
  addKeys2 mask amount := mask + amount
  h2d amount := UInt64.ofNat amount.toNat
  proof_point _ _ _ _ _ := rfl

def lockTx (keys : List PublicKey) (extra : List TxExtraField) : Transaction :=
  { hash := 1, version := 1, unlockTime := spinnedMoneyLockedBlocks, vin := [.gen 0]
    vout := keys.map fun k => { amount := 50, target := .toKey k }
    extra := extra, rctSignatures := .null, weight := 100, fee := 0, pruned := false }

def lockAdr : AccountPublicAddress := { spendPublicKey := 1000, viewPublicKey := 12 }

def shortTx : Transaction := lockTx [1005, 7777] [.pubKey 5, .additionalPubKeys [6]]

def fullTx : Transaction := lockTx [1005, 1009] [.pubKey 5, .additionalPubKeys [6, 7]]

end Sample

open Sample ProofCrypto

theorem lock_proof_safe_for_full_tx : proofCrypto.SafeCall fullTx 1 lockAdr [⟨5, 1⟩, ⟨6, 1⟩, ⟨8, 1⟩] []
        (proofCrypto.checkSpinnerTransactionProof fullTx 1 lockAdr [⟨5, 1⟩, ⟨6, 1⟩, ⟨8, 1⟩] [] 60 0) ↔
      proofCrypto.CoversOutputs fullTx 1 lockAdr [⟨5, 1⟩, ⟨6, 1⟩, ⟨8, 1⟩] [] := by
  refine lock_proof_safe_iff ⟨?_, ?_, ?_⟩ (by decide +kernel) 60 0
  · decide
  · decide
  · intro e he
    cases he

/-- With fewer additional keys than outputs the loop reads past an end; with a bad first pair it
computes with a derivation that was never set. -/
theorem lock_proof_out_of_range :
    proofCrypto.checkSpinnerTransactionProof shortTx 1 lockAdr [⟨5, 1⟩, ⟨6, 1⟩] [] 60 0 =
        .error (.additionalDerivations 1) ∧
      proofCrypto.checkSpinnerTransactionProof fullTx 1 lockAdr [⟨5, 0⟩, ⟨6, 1⟩, ⟨8, 1⟩] [] 50 5 =
        .ok { locked := some 100, uses := [.unset 5, .unset 5, .computed 8] } ∧
      proofCrypto.provenTotal fullTx 1 lockAdr [⟨5, 0⟩, ⟨6, 1⟩, ⟨8, 1⟩] [] = 50 := by
  decide +kernel

end Gyro
