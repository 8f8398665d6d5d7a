import Gyro.Lib.ShortSort
import Gyro.Lib.SubsetShares

/-!
# Multisig key exchange

`make_multisig` and `exchange_multisig_keys` (`wallet2.cpp`): view and spend keys first,
then derivations, last public multisig keys, whose sum is the spend public key. Infos
are taken as unpacked.
-/

namespace Gyro.Wallet.Multisig

/-- Hashing, the base point, the comparison of the bytes of points, and `std::sort`. -/
structure KeyOps (S P : Type) where
  /-- `get_multisig_blinded_secret_key`. -/
  blind : S → S
  /-- The same of the bytes of a point. -/
  hashKey : P → S
  base : P
  nullPkey : P
  memcmp : P → P → Int
  sort : (P → P → Bool) → List P → List P

structure ExtraInfo (P : Type) where
  signer : P
  keys : List P
  deriving DecidableEq

structure MultisigWallet (S P : Type) where
  viewSecretKey : S
  spendSecretKey : S
  spendPublicKey : P
  multisigKeys : List S
  derivations : List P
  threshold : Nat
  signers : List P
  roundsPassed : Nat
  deriving DecidableEq

variable {S P : Type} [CommRing S] [AddCommGroup P] [Module S P] (env : KeyOps S P)

def publicKey (secret : S) : P := secret • env.base

def generateMultisigDerivations (spend : S) (keys : List P) : List P := keys.map fun k => env.blind spend • k

def calculateMultisigKeys (derivations : List P) : List S := derivations.map env.hashKey

def calculateMultisigSignerKey (keys : List S) : S := keys.foldl (· + ·) 0

def generateMultisigViewSecretKey (skey : S) (skeys : List S) : S := skeys.foldl (· + ·) (env.blind skey)

def generateMultisigSpendPublicKey (pkeys : List P) : P := pkeys.foldl (· + ·) 0

def multisigRoundsRequired (participants threshold : Nat) : Option Nat :=
  if participants ≥ threshold then some (participants - threshold + 1) else none

def makeMultisig (spend view : S) (viewKeys : List S) (spendKeys : List P) (threshold : Nat) :
    Option (MultisigWallet S P × Option (ExtraInfo P)) :=
  if viewKeys = [] ∨ viewKeys.length ≠ spendKeys.length ∨ ¬(threshold > 1 ∧ threshold ≤ spendKeys.length + 1) then
    none
  else
    let viewSecretKey := generateMultisigViewSecretKey env view viewKeys
    if threshold = spendKeys.length + 1 then
      -- `generate_multisig_N_N`
      let spendSecretKey := env.blind spend
      some
        ({ viewSecretKey, spendSecretKey, multisigKeys := [spendSecretKey], derivations := [], threshold
           spendPublicKey := spendKeys.foldl (· + ·) (publicKey env spendSecretKey)
           signers := spendKeys ++ [publicKey env (env.blind spend)], roundsPassed := 1 }, none)
    else
      let derivations := generateMultisigDerivations env spend spendKeys
      let signers := List.replicate (spendKeys.length + 1) env.nullPkey
      if threshold = spendKeys.length then
        let multisigKeys := calculateMultisigKeys env derivations
        let spendSecretKey := calculateMultisigSignerKey multisigKeys
        some
          ({ viewSecretKey, spendSecretKey, spendPublicKey := 0, multisigKeys, derivations := [], threshold, signers
             roundsPassed := 1 }, some ⟨publicKey env spendSecretKey, multisigKeys.map (publicKey env)⟩)
      else
        some
          ({ viewSecretKey, spendSecretKey := spend, spendPublicKey := 0, multisigKeys := [], derivations, threshold
             signers, roundsPassed := 1 }, some ⟨publicKey env spend, derivations⟩)

variable [DecidableEq P]

def insertKey (keys : List P) (key : P) : List P := if key ∈ keys then keys else keys ++ [key]

def unpackKeys (infos : List (ExtraInfo P)) : List P :=
  infos.foldl (fun keys info => info.keys.foldl insertKey keys) []

/-- `exchange_multisig_keys`, on the keys and the signers of the infos. -/
def exchangeMultisigKeys (w : MultisigWallet S P) (derivations signers : List P) :
    Option (MultisigWallet S P × Option (ExtraInfo P)) :=
  if derivations = [] ∨ signers = [] ∨ w.spendPublicKey ≠ 0 then none
  else
    (multisigRoundsRequired w.signers.length w.threshold).bind fun required =>
      if w.roundsPassed + 1 = required then
        let localSigner := publicKey env w.spendSecretKey
        let isNew := localSigner ∉ signers
        let signers := if isNew then signers ++ [localSigner] else signers
        let derivations :=
          if isNew then (w.multisigKeys.map (publicKey env)).foldl insertKey derivations else derivations
        if signers.length ≠ w.signers.length then none
        else
          some
            ({ w with
               spendPublicKey := generateMultisigSpendPublicKey derivations
               -- The comparison returns the `int` of `memcmp` as a `bool`.
               signers := env.sort (fun e0 e1 => env.memcmp e0 e1 != 0) signers
               derivations := []
               roundsPassed := w.roundsPassed + 1 }, none)
      else
        let derivations := derivations.filter (· ∉ w.derivations)
        let newDerivations := generateMultisigDerivations env w.spendSecretKey derivations
        if w.roundsPassed + 2 = required then
          let multisigKeys := calculateMultisigKeys env newDerivations
          let spendSecretKey := calculateMultisigSignerKey multisigKeys
          some
            ({ w with spendSecretKey, spendPublicKey := 0, multisigKeys, roundsPassed := w.roundsPassed + 1 },
              some ⟨publicKey env spendSecretKey, multisigKeys.map (publicKey env)⟩)
        else
          some
            ({ w with derivations := newDerivations, roundsPassed := w.roundsPassed + 1 },
              some ⟨publicKey env w.spendSecretKey, newDerivations⟩)

/-! ## Honest runs -/

structure Seed (S : Type) where
  spend : S
  view : S

variable {ι : Type} [Fintype ι]

def collect {α : Type} (f : ι → Option α) : Option (ι → α) :=
  if h : ∀ i, (f i).isSome then some fun i => (f i).get (h i) else none

def startRound (seeds : ι → Seed S) (threshold : Nat) (order : ι → List ι) :
    Option (ι → MultisigWallet S P × Option (ExtraInfo P)) :=
  collect fun i => makeMultisig env (seeds i).spend (seeds i).view
    ((order i).map fun j => env.blind (seeds j).view)
    ((order i).map fun j => publicKey env (env.blind (seeds j).spend)) threshold

def exchangeRound (order : ι → List ι) (ws : ι → MultisigWallet S P × Option (ExtraInfo P)) :
    Option (ι → MultisigWallet S P × Option (ExtraInfo P)) :=
  collect fun i => ((order i).mapM fun j => (ws j).2).bind fun infos =>
    exchangeMultisigKeys env (ws i).1 (unpackKeys infos) (infos.map (·.signer))

/-- The wallets after the first round and some more, each with the infos in its own order. -/
def play (seeds : ι → Seed S) (threshold : Nat) (order : Nat → ι → List ι) :
    Nat → Option (ι → MultisigWallet S P × Option (ExtraInfo P))
  | 0 => startRound env seeds threshold (order 0)
  | r + 1 => (play seeds threshold order r).bind (exchangeRound env (order (r + 1)))

def OthersInOrder (i : ι) (js : List ι) : Prop := js.Nodup ∧ ∀ j, j ∈ js ↔ j ≠ i

end Gyro.Wallet.Multisig
