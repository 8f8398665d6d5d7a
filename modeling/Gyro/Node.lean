import Gyro.ChainGyro
import Gyro.Reorganize

/-!
# What a node does, step by step

A node handles a block for the main chain, pops the tip, stores an alternative block or
removes one. Every stored gyro is that of the block's own chain, as long as the beacon
of a block stored lies on the shared part.
-/

namespace Gyro

open Runs LastIndex Linked Exits WordSum List

inductive NodeOp where
  | handle (now : UInt64) (b : Block)
  | pop
  | store (b : Block)
  | removeAlt (id : Hash)
  /-- The pool and the lists of hashes change by other means. -/
  | touch (pool : Pool) (invalidBlocks blocksTxsCheck : List Hash)

def NodeOp.Brings (S : Block → Prop) : NodeOp → Prop
  | .handle _ b => S b
  | .store b => S b
  | _ => True

namespace Outcome

def state : Outcome → Blockchain
  | .added st | .rejected _ st | .raised _ st => st

end Outcome

def nodeStep (env : Env) (fuel : Nat) (st : Blockchain) : NodeOp → Option Blockchain
  | .handle now b => some (handleBlockToMainChain env fuel now st b).state
  | .pop => (popBlockFromBlockchain st).toOption.map (·.1)
  | .store b => (storeAlternative env fuel st b).toOption.map (·.1)
  | .removeAlt id => some (st.removeAltBlock id)
  | .touch pool invalidBlocks blocksTxsCheck => some { st with pool, invalidBlocks, blocksTxsCheck }

section
variable {env : Env} {fuel : Nat} {now : UInt64} {st st' : Blockchain} {b : Block}

theorem nodeStep_pop :
    nodeStep env fuel st .pop = some st' ↔ ∃ popped, popBlockFromBlockchain st = .ok (st', popped) := by
  simp [nodeStep, Option.map_eq_some_iff, toOption_eq_some]

theorem nodeStep_store : nodeStep env fuel st (.store b) = some st' ↔
      ∃ chain ab, storeAlternative env fuel st b = .ok (st', chain, ab) := by
  simp [nodeStep, Option.map_eq_some_iff, toOption_eq_some]

theorem handle_not_added (h : ∀ st', handleBlockToMainChain env fuel now st b ≠ .added st') :
    (handleBlockToMainChain env fuel now st b).state.db = st.db ∧
      (handleBlockToMainChain env fuel now st b).state.altBlocks = st.altBlocks := by
  revert h
  unfold handleBlockToMainChain
  intro h
  split
  · exact ⟨rfl, rfl⟩
  · split
    · rename_i why t _
      by_cases hh : why = .wrongInputs
      · simp [Outcome.state, Blockchain.reject, hh]
      · simp [Outcome.state, Blockchain.reject, hh]
    · split
      · exact ⟨rfl, rfl⟩
      · dsimp only
        split
        · exact ⟨rfl, rfl⟩
        · exact ⟨rfl, rfl⟩
        · split
          · exact ⟨rfl, rfl⟩
          · rename_i _ ha _ _ ht _ _ hwe _ _ hv _ db hd
            simp [ha, ht, hwe, hv, hd] at h

theorem require_eq_ok {ok : Bool} {why : AltRejection} (h : require ok why = .ok ()) : ok = true := by
  cases ok with
  | true => rfl
  | false => cases h

theorem orThrow_eq_ok {α : Type} {x : Option α} {a : α} (h : orThrow x = .ok a) : x = some a := by
  cases x with
  | none => cases h
  | some y => cases h; rfl

theorem requireData_eq_ok {why : AltRejection} {data : SpinnerData} (h : requireData b why = .ok data) :
    b.spinnerData = data := by
  unfold requireData at h
  split at h
  · cases h
  · rename_i d hd
    cases h
    simp [Block.spinnerData, hd]

theorem requireSpin_eq_ok {cfg : Config} {db : Db} {data : SpinnerData} {spin : SpinType}
    (h : requireSpin cfg db data = .ok spin) : getSpin cfg db data.nfo.proof.txid data.spin = .ok (some spin) := by
  unfold requireSpin at h
  split at h
  · cases h
  · cases h
  · rename_i s hs
    cases h
    exact hs

theorem prevalidate_height {height : UInt64} {version : UInt8}
    (h : prevalidateSpinnerTransaction b height version = true) : b.getBlockHeight = height := by
  unfold prevalidateSpinnerTransaction at h
  split at h
  · rename_i hh hv
    simp only [Bool.and_eq_true, decide_eq_true_eq] at h
    unfold Block.getBlockHeight
    rw [hv]
    exact h.1.1.2
  · cases h

structure Stores (env : Env) (fuel : Nat) (st : Blockchain) (b : Block) (st' : Blockchain)
    (chain : List AltBlock) (ab : AltBlock) (below : List AltBlock) (timestamps : List UInt64)
    (parent : AltParent) (spin : SpinType) : Prop where
  built : buildAltChain fuel st b.prevId = .ok (below, timestamps)
  continues : altParent st below b.prevId = .ok parent
  spins : getSpin env.cfg st.db b.spinnerData.nfo.proof.txid b.spinnerData.spin = .ok (some spin)
  block : ab.block = b
  height : ab.height = parent.height + 1
  claimed : b.getBlockHeight = ab.height
  gyro : ab.cumulativeGyro = parent.cumulativeGyro.addSpin spin
  fresh : st.altBlocks b.hash = none
  chain : chain = below ++ [ab]
  state : st' = st.addAltBlock b.hash ab

theorem Stores.altBlocks {chain below : List AltBlock} {ab ab' : AltBlock} {timestamps : List UInt64}
    {parent : AltParent} {spin : SpinType} {id : Hash}
    (h : Stores env fuel st b st' chain ab below timestamps parent spin)
    (ha' : st'.altBlocks id = some ab') : id = b.hash ∧ ab' = ab ∨ st.altBlocks id = some ab' := by
  rw [h.state] at ha'
  change (if id = b.hash then some ab else st.altBlocks id) = some ab' at ha'
  by_cases hi : id = b.hash
  · rw [if_pos hi] at ha'
    cases ha'
    exact .inl ⟨hi, rfl⟩
  · rw [if_neg hi] at ha'
    exact .inr ha'

theorem storeAlternative_eq_ok {chain : List AltBlock} {ab : AltBlock}
    (h : storeAlternative env fuel st b = .ok (st', chain, ab)) : ∃ below timestamps parent spin,
      Stores env fuel st b st' chain ab below timestamps parent spin := by
  obtain ⟨⟨below, record⟩, hr, h⟩ := bind_eq_ok.mp h
  obtain ⟨_, hf, h⟩ := bind_eq_ok.mp h
  cases h
  obtain ⟨⟨_, timestamps⟩, hb, h⟩ := bind_eq_ok.mp hr
  obtain ⟨parent, hp, h⟩ := bind_eq_ok.mp h
  obtain ⟨_, _, h⟩ := bind_eq_ok.mp h
  obtain ⟨_, _, h⟩ := bind_eq_ok.mp h
  obtain ⟨_, hvalid, h⟩ := bind_eq_ok.mp h
  obtain ⟨data, hd, h⟩ := bind_eq_ok.mp h
  obtain ⟨spin, hs, h⟩ := bind_eq_ok.mp h
  obtain ⟨_, _, h⟩ := bind_eq_ok.mp h
  obtain ⟨_, _, h⟩ := bind_eq_ok.mp h
  obtain ⟨_, _, h⟩ := bind_eq_ok.mp h
  cases h
  refine ⟨below, timestamps, parent, spin, ⟨hb, hp, ?_, rfl, rfl, ?_, rfl, ?_, rfl, rfl⟩⟩
  · rw [requireData_eq_ok hd]
    exact requireSpin_eq_ok hs
  · exact prevalidate_height (require_eq_ok hvalid)
  · exact Option.isNone_iff_eq_none.mp (require_eq_ok hf)

end

structure TrueAlt (cfg : Config) (S : Block → Prop) (id : Hash) (ab : AltBlock) : Prop where
  hash : ab.block.hash = id
  met : S ab.block
  chain : ∃ rest, LinkedBlocks (ab.block :: rest) ∧ (∀ b ∈ rest, S b) ∧
    ab.height = UInt64.ofNat rest.length ∧ ab.cumulativeGyro = chainGyro cfg (ab.block :: rest)

/-- Every gyro, on the main chain and beside it, is that of the block's own chain. -/
structure TrueNode (cfg : Config) (S : Block → Prop) (st : Blockchain) : Prop where
  main : TrueChain cfg S st.db
  alt : ∀ id ab, st.altBlocks id = some ab → TrueAlt cfg S id ab

def forkHeight (fuel : Nat) (st : Blockchain) (prevId : Hash) : Nat :=
  match altAncestors st fuel prevId [] with
  | .ok (front :: _) => front.height.toNat
  | _ => ((st.db.getBlockHeight prevId).map fun h => h.toNat + 1).getD 0

/-- A block above the start blocks whose lock and beacon window lie below the fork. -/
structure BeaconShared (cfg : Config) (fuel : Nat) (st : Blockchain) (b : Block) : Prop where
  above : cfg.startAmountBlocks < b.getBlockHeight
  notFirst : 1 < b.getBlockHeight
  beacon : ∃ h, st.db.getTxBlockHeight b.spinnerData.nfo.proof.txid = some h ∧
    beaconEnd cfg h ≤ forkHeight fuel st b.prevId ∧
    h + cfg.spinnerPvrbBlockWindow < b.getBlockHeight

theorem beaconShared_iff {cfg : Config} {fuel : Nat} {st : Blockchain} {b : Block} :
    BeaconShared cfg fuel st b ↔ cfg.startAmountBlocks < b.getBlockHeight ∧ 1 < b.getBlockHeight ∧
      ((st.db.getTxBlockHeight b.spinnerData.nfo.proof.txid).any fun h =>
        decide (beaconEnd cfg h ≤ forkHeight fuel st b.prevId ∧
          h + cfg.spinnerPvrbBlockWindow < b.getBlockHeight)) = true := by
  simp only [Option.any_eq_true, decide_eq_true_eq]
  exact ⟨fun h => ⟨h.above, h.notFirst, h.beacon⟩, fun ⟨h, h', h''⟩ => ⟨h, h', h''⟩⟩

instance (cfg : Config) (fuel : Nat) (st : Blockchain) (b : Block) :
    Decidable (BeaconShared cfg fuel st b) :=
  decidable_of_iff _ beaconShared_iff.symm

def NodeOp.SharesBeacon (cfg : Config) (fuel : Nat) (st : Blockchain) : NodeOp → Prop
  | .store b => BeaconShared cfg fuel st b
  | _ => True

section
variable {env : Env} {fuel : Nat} {now : UInt64} {S : Block → Prop} {st st' : Blockchain} {b : Block}

theorem altAncestors_eq_ok (hS : Distinct Block.hash nullHash S) (hs : TrueNode env.cfg S st) :
    ∀ {fuel : Nat} {id : Hash} {acc chain : List AltBlock} {rest : List Block},
      altAncestors st fuel id acc = .ok chain → LinkedBlocks rest → (∀ b ∈ rest, S b) →
      topHash Block.hash nullHash rest = id → ∃ (below : List AltBlock) (root : List Block), chain = below ++ acc ∧
        rest = (below.map (·.block)).reverse ++ root ∧
        topHash Block.hash nullHash root = ((below.head?.map (·.block.prevId)).getD id) ∧
        (below = [] → st.altBlocks id = none)
  | 0, _, _, _, _, h, _, _, _ => by cases h
  | fuel + 1, id, acc, chain, rest, h, hl, hme, ht => by
    unfold altAncestors at h
    split at h
    · rename_i hn
      cases h
      exact ⟨[], rest, rfl, rfl, ht, fun _ => hn⟩
    · rename_i ab hb
      have ha := hs.alt id ab hb
      cases rest with
      | nil => exact absurd (ha.hash.trans ht.symm) (hS.not_root ab.block ha.met)
      | cons c rest =>
        have hc : c = ab.block :=
          hS.injective c ab.block (hme c mem_cons_self) ha.met (ht.trans ha.hash.symm)
        subst hc
        obtain ⟨below, root, hh, hr, ho, _⟩ :=
          altAncestors_eq_ok hS hs h hl.2 (fun d hd => hme d (mem_cons_of_mem _ hd))
            hl.1.symm
        refine ⟨below ++ [ab], root, ?_, ?_, ?_, ?_⟩
        · rw [hh, append_assoc]
          rfl
        · rw [hr, map_append, reverse_append]
          rfl
        · rw [ho]
          cases below with
          | nil => rfl
          | cons a below => rfl
        · intro hi
          simp at hi

variable {id : Hash}

theorem altAncestors_last {acc chain : List AltBlock} (h : altAncestors st fuel id acc = .ok chain) :
    (chain = acc ∧ st.altBlocks id = none) ∨ ∃ ab below, st.altBlocks id = some ab ∧ chain = below ++ ab :: acc := by
  induction fuel generalizing id acc with
  | zero => cases h
  | succ fuel ih =>
    unfold altAncestors at h
    split at h
    · rename_i hn
      cases h
      exact .inl ⟨rfl, hn⟩
    · rename_i ab ha
      refine .inr ⟨ab, ?_⟩
      obtain ⟨rfl, _⟩ | ⟨ab', below, _, rfl⟩ := ih h
      · exact ⟨[], ha, rfl⟩
      · exact ⟨below ++ [ab'], ha, by simp⟩

theorem TrueChain.upTo {cfg : Config} {db : Db} (h : TrueChain cfg S db) {i : Nat} {e : BlockEntry}
    (he : db.entries[i]? = some e) :
    LinkedBlocks (db.blocks.take (i + 1)).reverse ∧ (∀ b ∈ (db.blocks.take (i + 1)).reverse, S b) ∧
      topHash Block.hash nullHash (db.blocks.take (i + 1)).reverse = e.block.hash ∧
      (db.blocks.take (i + 1)).length = i + 1 := by
  have hi : i < db.entries.length := (List.getElem?_eq_some_iff.mp he).1
  have hlen : (db.blocks.take (i + 1)).length = i + 1 := by
    rw [length_take, Db.blocks, length_map]
    omega
  refine ⟨?_, ?_, ?_, hlen⟩
  · have hl := h.linked
    rw [← take_append_drop (i + 1) db.blocks, reverse_append] at hl
    exact hl.of_append
  · intro b hb
    exact h.met b (mem_of_mem_take (mem_reverse.mp hb))
  · have ha : db.blocks[i]? = some e.block := by
      rw [Db.blocks, List.getElem?_map, he]
      rfl
    rw [take_add_one, ha, reverse_append]
    rfl

theorem getBlockHeight_eq_some {db : Db} {h : UInt64} (hh : db.getBlockHeight id = some h) :
    ∃ e, db.entries[h.toNat]? = some e ∧ e.block.hash = id := by
  obtain ⟨i, hi, rfl⟩ := Option.map_eq_some_iff.mp hh
  have hl := (List.findIdx?_eq_some_iff_findIdx_eq.mp hi).1
  rw [Db.toNat_ofNat_of_lt hl]
  obtain ⟨_, hp, _⟩ := List.findIdx?_eq_some_iff_getElem.mp hi
  exact ⟨db.entries[i], List.getElem?_eq_getElem hl, by simpa using hp⟩

structure Continues (cfg : Config) (S : Block → Prop) (st : Blockchain) (prevId : Hash)
    (parent : AltParent) (rest : List Block) (r : Nat) : Prop where
  linked : LinkedBlocks rest
  met : ∀ b ∈ rest, S b
  top : topHash Block.hash nullHash rest = prevId
  gyro : parent.cumulativeGyro = chainGyro cfg rest
  height : parent.height + 1 = UInt64.ofNat rest.length
  shared : st.db.blocks.take r = rest.reverse.take r
  within : r ≤ st.db.blocks.length

variable {timestamps : List UInt64} {prevId : Hash}

theorem buildAltChain_nil (h : buildAltChain fuel st prevId = .ok ([], timestamps)) :
    altAncestors st fuel prevId [] = .ok [] := by
  unfold buildAltChain at h
  split at h
  · cases h
  · rename_i heq
    exact heq
  · obtain ⟨_, _, h⟩ := bind_eq_ok.mp h
    obtain ⟨_, _, h⟩ := bind_eq_ok.mp h
    obtain ⟨_, _, h⟩ := bind_eq_ok.mp h
    obtain ⟨_, _, h⟩ := bind_eq_ok.mp h
    obtain ⟨_, _, h⟩ := bind_eq_ok.mp h
    cases h

variable {more : List AltBlock}

theorem buildAltChain_cons {front : AltBlock} (h : buildAltChain fuel st prevId = .ok (front :: more, timestamps)) :
    altAncestors st fuel prevId [] = .ok (front :: more) ∧
      ∃ e, st.db.entries[(front.height - 1).toNat]? = some e ∧ e.block.hash = front.block.prevId := by
  unfold buildAltChain at h
  split at h
  · cases h
  · split at h
    · cases h
    · cases h
  · rename_i f rest heq
    obtain ⟨_, _, h⟩ := bind_eq_ok.mp h
    obtain ⟨_, _, h⟩ := bind_eq_ok.mp h
    obtain ⟨id, hi, h⟩ := bind_eq_ok.mp h
    obtain ⟨_, hs, h⟩ := bind_eq_ok.mp h
    obtain ⟨_, _, h⟩ := bind_eq_ok.mp h
    cases h
    refine ⟨heq, ?_⟩
    obtain ⟨e, he, rfl⟩ := Option.map_eq_some_iff.mp (orThrow_eq_ok hi)
    exact ⟨e, he, by simpa using require_eq_ok hs⟩

theorem altAncestors_stored {acc chain : List AltBlock} (h : altAncestors st fuel id acc = .ok chain) :
    ∀ ab ∈ chain, ab ∈ acc ∨ ∃ id, st.altBlocks id = some ab := by
  induction fuel generalizing id acc with
  | zero => cases h
  | succ fuel ih =>
    unfold altAncestors at h
    split at h
    · cases h
      exact fun ab ha => .inl ha
    · rename_i ab ha
      intro ab' ha'
      obtain hc | hs := ih h ab' ha'
      · cases hc with
        | head => exact .inr ⟨id, ha⟩
        | tail _ hc => exact .inl hc
      · exact .inr hs

variable {parent : AltParent} {ab : AltBlock} {spin : SpinType} {chain below : List AltBlock}

theorem Stores.ancestors (h : Stores env fuel st b st' chain ab below timestamps parent spin) :
    altAncestors st fuel b.prevId [] = .ok below := by
  have hb := h.built
  cases below with
  | nil => exact buildAltChain_nil hb
  | cons front more => exact (buildAltChain_cons hb).1

theorem storeAlternative_stored {chain : List AltBlock} (h : storeAlternative env fuel st b = .ok (st', chain, ab)) :
    ∀ ab' ∈ chain, ∃ id, st'.altBlocks id = some ab' := by
  obtain ⟨below, timestamps, parent, spin, hs⟩ := storeAlternative_eq_ok h
  intro ab' ha'
  rw [hs.chain] at ha'
  rw [hs.state]
  obtain hb | hl := mem_append.mp ha'
  · obtain hn | ⟨id, hi⟩ := altAncestors_stored hs.ancestors ab' hb
    · cases hn
    · refine ⟨id, ?_⟩
      have hne : id ≠ b.hash := by
        rintro rfl
        rw [hs.fresh] at hi
        cases hi
      change (if id = b.hash then some ab else st.altBlocks id) = some ab'
      rw [if_neg hne]
      exact hi
  · refine ⟨b.hash, ?_⟩
    rw [mem_singleton.mp hl]
    exact if_pos rfl

theorem TrueNode.continues_main (hs : TrueNode env.cfg S st)
    (ho : altAncestors st fuel prevId [] = .ok []) (hp : altParent st [] prevId = .ok parent) :
    ∃ rest, Continues env.cfg S st prevId parent rest (forkHeight fuel st prevId) := by
  obtain ⟨h, hh, hp⟩ := bind_eq_ok.mp hp
  obtain ⟨e, he, hp⟩ := bind_eq_ok.mp hp
  cases hp
  have hhe := orThrow_eq_ok hh
  have hn : st.db.entries[h.toNat]? = some e := orThrow_eq_ok he
  obtain ⟨e', he', hi⟩ := getBlockHeight_eq_some hhe
  have hee : e = e' := Option.some.inj (hn.symm.trans he')
  subst hee
  obtain ⟨hl, hme, ht, hlen⟩ := hs.main.upTo hn
  have hf : forkHeight fuel st prevId = h.toNat + 1 := by
    simp [forkHeight, ho, hhe]
  refine ⟨(st.db.blocks.take (h.toNat + 1)).reverse, hl, hme, ht.trans hi,
    hs.main.gyro _ e hn, ?_, ?_, ?_⟩
  · rw [length_reverse, hlen, UInt64.ofNat_add, UInt64.ofNat_toNat]
    rfl
  · rw [hf, reverse_reverse, take_take, Nat.min_self]
  · rw [hf, ← hlen, length_take]
    exact Nat.min_le_right _ _

section
variable (hS : Distinct Block.hash nullHash S) (hs : TrueNode env.cfg S st)
include hS hs

theorem TrueNode.continues_alt {front : AltBlock} {e : BlockEntry}
    (hn : altAncestors st fuel prevId [] = .ok (front :: more)) (hp : altParent st (front :: more) prevId = .ok parent)
    (he : st.db.entries[(front.height - 1).toNat]? = some e) (hd : e.block.hash = front.block.prevId) :
    ∃ rest, Continues env.cfg S st prevId parent rest (forkHeight fuel st prevId) := by
  obtain ⟨hni, _⟩ | ⟨ab, below, hab, hc⟩ := altAncestors_last hn
  · cases hni
  have ha := hs.alt prevId ab hab
  obtain ⟨rest, hl, hme, hh, hg⟩ := ha.chain
  have hm' : ∀ b ∈ ab.block :: rest, S b := by
    intro b hb
    cases hb with
    | head => exact ha.met
    | tail _ hb => exact hme b hb
  obtain ⟨below', root, hbe, hre, ho, _⟩ :=
    altAncestors_eq_ok hS hs hn hl hm' ha.hash
  rw [append_nil] at hbe
  subst hbe
  -- both chains end in the block the first stored ancestor names
  obtain ⟨hma, hmn, ht, hi⟩ := hs.main.upTo he
  have hr : LinkedBlocks root := by
    rw [hre] at hl
    exact hl.of_append
  have hrt : ∀ b ∈ root, S b := by
    intro b hb
    refine hm' b ?_
    rw [hre]
    exact mem_append_right _ hb
  have hsa : root = (st.db.blocks.take ((front.height - 1).toNat + 1)).reverse :=
    hr.unique hS hma hrt hmn (ho.trans (hd.symm.trans ht.symm))
  have hpo : front.height.toNat = (front.height - 1).toNat + 1 := by
    have hlt : (front.height - 1).toNat < st.db.entries.length := (List.getElem?_eq_some_iff.mp he).1
    have hbo := st.db.bounded
    have hu : front.height = (front.height - 1) + 1 := by grind
    calc front.height.toNat = ((front.height - 1) + 1).toNat := by rw [← hu]
      _ = (front.height - 1).toNat + 1 :=
        add_toNat (by change (front.height - 1).toNat + 1 < 2 ^ 64; omega)
  have hf : forkHeight fuel st prevId = (front.height - 1).toNat + 1 := by
    simp only [forkHeight, hn]
    exact hpo
  have hp' : parent = ⟨ab.height, ab.alreadyGeneratedCoins, ab.cumulativeGyro⟩ := by
    unfold altParent at hp
    rw [hc, List.getLast?_concat] at hp
    cases hp
    rfl
  subst hp'
  refine ⟨ab.block :: rest, hl, hm', ha.hash, hg, ?_, ?_, ?_⟩
  · rw [length_cons, UInt64.ofNat_add, ← hh]
    rfl
  · rw [hf, hre, reverse_append, hsa, reverse_reverse,
      take_append_of_le_length (by rw [hi]), take_take, Nat.min_self]
  · rw [hf, ← hi, length_take]
    exact Nat.min_le_right _ _

theorem Stores.parentChain (h : Stores env fuel st b st' chain ab below timestamps parent spin) :
    ∃ rest, Continues env.cfg S st b.prevId parent rest (forkHeight fuel st b.prevId) := by
  cases below with
  | nil => exact hs.continues_main (buildAltChain_nil h.built) h.continues
  | cons front more =>
    obtain ⟨ha, e, he, hi⟩ := buildAltChain_cons h.built
    exact hs.continues_alt hS ha h.continues he hi

end

/-- The spin read from the main chain is the spin on the block's own chain. -/
theorem BeaconShared.spin_eq (hst : TrueNode env.cfg S st) (hb : BeaconShared env.cfg fuel st b) {rest : List Block}
    (hr : Continues env.cfg S st b.prevId parent rest (forkHeight fuel st b.prevId))
    (hh : b.getBlockHeight = UInt64.ofNat rest.length)
    (hs : getSpin env.cfg st.db b.spinnerData.nfo.proof.txid b.spinnerData.spin = .ok (some spin)) :
    blockSpin env.cfg rest b = spin := by
  obtain ⟨h, ht, hd, ho⟩ := hb.beacon
  have hv := Db.view_eq hst.main.txs
  have ha : h + env.cfg.spinnerPvrbBlockWindow < (viewOf st.db.blocks).height := by
    rw [← hv]
    unfold getSpin ChainView.getSpin at hs
    have hrd : st.db.view.txBlockHeight b.spinnerData.nfo.proof.txid = some h := ht
    rw [hrd] at hs
    by_contra hle
    have hle : st.db.view.height ≤ h + env.cfg.spinnerPvrbBlockWindow := by simpa using hle
    simp only [hle, if_true] at hs
    cases hs
  have how : h + env.cfg.spinnerPvrbBlockWindow < (viewOf rest.reverse).height := by
    change _ < UInt64.ofNat rest.reverse.length
    rw [length_reverse, ← hh]
    exact ho
  have hlen : st.db.blocks.length < 2 ^ 64 := by
    rw [Db.blocks, length_map]
    exact st.db.length_lt
  have ht' : (viewOf st.db.blocks).txBlockHeight b.spinnerData.nfo.proof.txid = some h := by
    rw [← hv]
    exact ht
  have hsa := getSpin_of_shared (m := b.spinnerData.spin) hr.shared hr.within hlen ht' hd
    ha how
  unfold getSpin at hs
  rw [hv] at hs
  unfold blockSpin
  rw [← hh, if_pos hb.above, ← hsa, hs]

theorem TrueNode.store (hS : Distinct Block.hash nullHash S) (ht : TrueNode env.cfg S st) (hme : S b)
    (hb : BeaconShared env.cfg fuel st b) {chain : List AltBlock}
    (h : storeAlternative env fuel st b = .ok (st', chain, ab)) :
    TrueNode env.cfg S st' ∧ TrueAlt env.cfg S b.hash ab := by
  obtain ⟨below, timestamps, parent, spin, hs⟩ := storeAlternative_eq_ok h
  obtain ⟨rest, hr⟩ := hs.parentChain hS ht
  have hh : b.getBlockHeight = UInt64.ofNat rest.length := by
    rw [hs.claimed, hs.height, hr.height]
  have hp := hb.spin_eq ht hr hh hs.spins
  have hg : ab.cumulativeGyro = chainGyro env.cfg (b :: rest) := by
    have hps : 1 < UInt64.ofNat rest.length := by
      rw [← hh]
      exact hb.notFirst
    rw [hs.gyro, chainGyro, if_pos hps, hp, hr.gyro]
  have ha : TrueAlt env.cfg S b.hash ab := by
    refine ⟨by rw [hs.block], by rw [hs.block]; exact hme, rest, ?_, hr.met, ?_, ?_⟩
    · rw [hs.block]
      exact ⟨hr.top.symm, hr.linked⟩
    · rw [hs.height, hr.height]
    · rw [hs.block]
      exact hg
  refine ⟨⟨?_, ?_⟩, ha⟩
  · rw [hs.state]
    exact ht.main
  · intro id ab' ha'
    obtain ⟨rfl, rfl⟩ | hf := hs.altBlocks ha'
    · exact ha
    · exact ht.alt id ab' hf

theorem popBlock_eq_ok {popped : Block} (h : popBlockFromBlockchain st = .ok (st', popped)) :
    ∃ e, st.db.removeBlock = .ok (st'.db, e) ∧ e.block = popped ∧
      st' = { st with db := st'.db, pool := st.pool.returnTxs (poppedTxs e), blocksTxsCheck := [] } := by
  unfold popBlockFromBlockchain at h
  split at h
  · cases h
  · split at h
    · cases h
    · rename_i db e hr
      cases h
      exact ⟨e, hr, rfl, rfl⟩

theorem TrueNode.pop (hs : TrueNode env.cfg S st) {popped : Block}
    (h : popBlockFromBlockchain st = .ok (st', popped)) : TrueNode env.cfg S st' := by
  obtain ⟨e, hr, _, ht⟩ := popBlock_eq_ok h
  refine ⟨hs.main.removeBlock hr, ?_⟩
  intro id ab ha
  rw [ht] at ha
  exact hs.alt id ab ha

theorem TrueNode.handle (hs : TrueNode env.cfg S st) (hb : S b) :
    TrueNode env.cfg S (handleBlockToMainChain env fuel now st b).state := by
  by_cases hd : ∃ st', handleBlockToMainChain env fuel now st b = .added st'
  · obtain ⟨st', hs'⟩ := hd
    rw [hs']
    obtain ⟨hma, _, hl⟩ := hs.main.added hb hs'
    refine ⟨hma, ?_⟩
    intro id ab ha
    change st'.altBlocks id = some ab at ha
    rw [hl] at ha
    exact hs.alt id ab ha
  · rw [not_exists] at hd
    obtain ⟨hdb, hl⟩ := handle_not_added hd
    refine ⟨by rw [hdb]; exact hs.main, ?_⟩
    intro id ab ha
    rw [hl] at ha
    exact hs.alt id ab ha

theorem TrueNode.step (hS : Distinct Block.hash nullHash S) (hs : TrueNode env.cfg S st) {op : NodeOp}
    (hb : op.Brings S) (hh : op.SharesBeacon env.cfg fuel st)
    (h : nodeStep env fuel st op = some st') : TrueNode env.cfg S st' := by
  cases op with
  | handle now b =>
    cases h
    exact hs.handle hb
  | pop =>
    obtain ⟨popped, hp⟩ := nodeStep_pop.mp h
    exact hs.pop hp
  | store b =>
    obtain ⟨chain, ab, hr⟩ := nodeStep_store.mp h
    exact (hs.store hS hb hh hr).1
  | removeAlt id =>
    cases h
    refine ⟨hs.main, ?_⟩
    intro k ab ha
    change (if k = id then none else st.altBlocks k) = some ab at ha
    by_cases hk : k = id
    · rw [if_pos hk] at ha
      cases ha
    · rw [if_neg hk] at ha
      exact hs.alt k ab ha
  | touch pool invalidBlocks blocksTxsCheck =>
    cases h
    exact ⟨hs.main, hs.alt⟩

structure Fresh (st : Blockchain) : Prop where
  db : st.db = Db.empty
  altBlocks : ∀ id, st.altBlocks id = none

theorem Fresh.trueNode {cfg : Config} (h : Fresh st) : TrueNode cfg S st := by
  refine ⟨?_, ?_⟩
  · rw [h.db]
    exact empty_trueChain
  · intro id ab ha
    rw [h.altBlocks] at ha
    cases ha

def ReachedSharing (env : Env) (fuel : Nat) (S : Block → Prop) (st : Blockchain) : Prop :=
  ∃ st₀ ops, Fresh st₀ ∧ run (nodeStep env fuel) st₀ ops = some st ∧
    EveryStep (nodeStep env fuel)
      (fun s op => op.Brings S ∧ op.SharesBeacon env.cfg fuel s) st₀ ops

theorem ReachedSharing.concat (hs : ReachedSharing env fuel S st) {op : NodeOp} (ho : op.Brings S)
    (hh : op.SharesBeacon env.cfg fuel st) (h : nodeStep env fuel st op = some st') :
    ReachedSharing env fuel S st' := by
  obtain ⟨st₀, ops, hf, hr, hse⟩ := hs
  refine ⟨st₀, ops ++ [op], hf, ?_, ?_⟩
  · rw [run_append, hr]
    exact run_cons_eq_some.mpr ⟨st', h, rfl⟩
  · refine hse.concat ?_
    intro u hu
    rw [hr] at hu
    cases hu
    exact ⟨ho, hh⟩

theorem ReachedSharing.trueNode (hS : Distinct Block.hash nullHash S)
    (h : ReachedSharing env fuel S st) : TrueNode env.cfg S st := by
  obtain ⟨st₀, ops, hf, hr, hse⟩ := h
  refine run_invariant (I := TrueNode env.cfg S) ?_ hf.trueNode hse hr
  rintro s op t hs ⟨hb, hh⟩ ht
  exact hs.step hS hb hh ht

end

/-! ## A network that forks, with a beacon window of one block -/

namespace Sample

def forkConfig : Config :=
  { Config.default with startAmountBlocks := 4, spinnerPvrbBlockWindow := 1 }

def spinner (k : Nat) (txid : Hash) : SpinnerInfo where
  adr :=
    { spendPublicKey := BitVec.ofNat 256 (10 * k + 1), viewPublicKey := BitVec.ofNat 256 (10 * k + 2) }
  proof := { txid, pairs := [{ key := 1, sig := 1 }] }
  pub := 13
  sig := 0
  prevuosHeight := 0

def forkData (nfo : SpinnerInfo) : SpinnerData where
  nfo := nfo
  approximatelyCount := 10
  locked := 250000000000000
  mediumLocked := 250000000000000
  spin := 1619
  mediumSpin := 1619
  interval := 132
  mediumInterval := 120

def forkBlock (id : Nat) (prevId : Hash) (height : Nat) (reward : UInt64) (data : SpinnerData) : Block where
  hash := BitVec.ofNat 256 id
  majorVersion := 1
  minorVersion := 1
  timestamp := 120 * UInt64.ofNat height
  prevId := prevId
  spinnerTx := coinbase (BitVec.ofNat 256 (100000 + id)) (UInt64.ofNat height) reward
    [.spinData (writeSpinnerData data), .spinSig 0]
  txHashes := []

def clock : UInt64 := 1000000

def startOps : List NodeOp :=
  (List.range 5).map fun h => .handle clock (startBlock forkConfig h)

end Sample

end Gyro
