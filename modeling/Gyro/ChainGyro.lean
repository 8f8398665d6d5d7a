import Gyro.PoolAtomic
import Gyro.Lib.Linked
import Gyro.Lib.WordSum

/-!
# The gyro of a chain of blocks

The cumulative gyro of a block as a function of the block and those below it, and
`get_spin` on two chains that share the beacon window.
-/

namespace Gyro

open Runs LastIndex Linked WordSum List

def Block.hasTx (b : Block) (id : Hash) : Bool := decide (b.spinnerTx.hash = id) || decide (id ∈ b.txHashes)

def viewOf (blocks : List Block) : ChainView where
  height := UInt64.ofNat blocks.length
  txBlockHeight id := (blocks.findIdx? (·.hasTx id)).map UInt64.ofNat
  blockHash h := blocks[h.toNat]?.map (·.hash)

variable {db : Db} {cfg : Config} {txid : Hash} {m h : UInt64}

section
variable (cfg : Config)

def blockSpin (rest : List Block) (b : Block) : SpinType :=
  if cfg.startAmountBlocks < UInt64.ofNat rest.length then
    match (viewOf rest.reverse).getSpin cfg b.spinnerData.nfo.proof.txid b.spinnerData.spin with
    | .ok (some spin) => spin
    | _ => SpinType.unit
  else SpinType.unit

def chainGyro : List Block → GyroType
  | [] => GyroType.unit
  | b :: rest =>
    if 1 < UInt64.ofNat rest.length then (chainGyro rest).addSpin (blockSpin cfg rest b)
    else GyroType.ofSpin (blockSpin cfg rest b)

end

namespace Db

def blocks (db : Db) : List Block := db.entries.map (·.block)

def TxsNamed (db : Db) : Prop := ∀ e ∈ db.entries, e.txs.map (·.hash) = e.block.txHashes

section

theorem hasTx_block {e : BlockEntry} (h : e.txs.map (·.hash) = e.block.txHashes) (id : Hash) :
    e.hasTx id = e.block.hasTx id := by
  unfold BlockEntry.hasTx BlockEntry.allTxs Block.hasTx
  rw [← h]
  rw [Bool.eq_iff_iff]
  simp

theorem findIdx?_hasTx (id : Hash) : ∀ {entries : List BlockEntry},
    (∀ e ∈ entries, e.txs.map (·.hash) = e.block.txHashes) →
    entries.findIdx? (·.hasTx id) = (entries.map (·.block)).findIdx? (·.hasTx id)
  | [], _ => rfl
  | e :: entries, h => by
    rw [List.map_cons, List.findIdx?_cons, List.findIdx?_cons, hasTx_block (h e List.mem_cons_self),
      findIdx?_hasTx id fun e' he' => h e' (List.mem_cons_of_mem _ he')]

theorem view_eq (h : db.TxsNamed) : db.view = viewOf db.blocks := by
  have hh : db.height = UInt64.ofNat db.blocks.length := by
    simp [Db.height, Db.blocks]
  have ht : db.getTxBlockHeight = fun id => (db.blocks.findIdx? (·.hasTx id)).map UInt64.ofNat := by
    funext id
    exact congrArg _ (findIdx?_hasTx id h)
  have ha : db.getBlockHashFromHeight = fun h => db.blocks[h.toNat]?.map (·.hash) := by
    funext h
    unfold getBlockHashFromHeight entryAt blocks
    rw [List.getElem?_map, Option.map_map]
    rfl
  unfold view viewOf
  rw [hh, ht, ha]

end

end Db

section
variable {v w : ChainView} {bound : Nat}

theorem beaconFrom_congr (hh : ∀ n : UInt64, n.toNat < bound → v.blockHash n = w.blockHash n)
    (hbound : bound < 2 ^ 64) : ∀ {count : Nat} {n : UInt64} {x : Hash}, n.toNat + count ≤ bound →
      beaconFrom v count n x = beaconFrom w count n x
  | 0, _, _, _ => rfl
  | count + 1, n, x, hle => by
    have hs : (n + 1).toNat = n.toNat + 1 := add_toNat (by change n.toNat + 1 < 2 ^ 64; omega)
    unfold beaconFrom
    rw [hh n (by omega)]
    split
    · rfl
    · exact beaconFrom_congr hh hbound (by omega)

def beaconEnd (cfg : Config) (h : UInt64) : Nat := h.toNat + max cfg.spinnerPvrbBlockWindow.toNat 2

theorem beacon_congr (hh : ∀ n : UInt64, n.toNat < beaconEnd cfg h → v.blockHash n = w.blockHash n)
    (hbound : beaconEnd cfg h < 2 ^ 64) :
    beacon v cfg.spinnerPvrbBlockWindow h = beacon w cfg.spinnerPvrbBlockWindow h := by
  have hbound' := hbound
  unfold beaconEnd at hbound'
  have ho : (h + 1).toNat = h.toNat + 1 := add_toNat (by change h.toNat + 1 < 2 ^ 64; omega)
  have ht : (h + 2).toNat = h.toNat + 2 := add_toNat (by change h.toNat + 2 < 2 ^ 64; omega)
  have hd : (h + cfg.spinnerPvrbBlockWindow).toNat = h.toNat + cfg.spinnerPvrbBlockWindow.toNat :=
    add_toNat (by omega)
  unfold beacon
  rw [hh (h + 1) (by unfold beaconEnd; omega)]
  split
  · rfl
  · refine beaconFrom_congr hh hbound ?_
    unfold beaconEnd
    omega

theorem ChainView.getSpin_congr (hv : v.txBlockHeight txid = some h) (hw : w.txBlockHeight txid = some h)
    (hh : ∀ n : UInt64, n.toNat < beaconEnd cfg h → v.blockHash n = w.blockHash n)
    (hbound : beaconEnd cfg h < 2 ^ 64) (hvh : h + cfg.spinnerPvrbBlockWindow < v.height)
    (hwh : h + cfg.spinnerPvrbBlockWindow < w.height) : v.getSpin cfg txid m = w.getSpin cfg txid m := by
  have hn : ¬ v.height ≤ h + cfg.spinnerPvrbBlockWindow := by simpa using hvh
  have hwn : ¬ w.height ≤ h + cfg.spinnerPvrbBlockWindow := by simpa using hwh
  unfold ChainView.getSpin
  simp only [hv, hw, hn, hwn, beacon_congr hh hbound]

end

section
variable {xs ys : List Block} {r : Nat}

theorem findIdx?_of_take {α : Type} {p : α → Bool} {xs ys : List α} {r i : Nat}
    (ht : xs.take r = ys.take r) (hi : i < r) (h : xs.findIdx? p = some i) : ys.findIdx? p = some i := by
  have hp : (xs.take r).findIdx? p = some i := by
    rw [← take_append_drop r xs, List.findIdx?_append] at h
    cases ht' : (xs.take r).findIdx? p with
    | some j =>
      rw [ht'] at h
      exact h
    | none =>
      rw [ht'] at h
      obtain ⟨j, hj, hji⟩ := Option.map_eq_some_iff.mp h
      have hd : j < (xs.drop r).length := (List.findIdx?_eq_some_iff_findIdx_eq.mp hj).1
      rw [length_drop] at hd
      rw [length_take] at hji
      omega
  rw [← take_append_drop r ys, List.findIdx?_append, ← ht, hp]
  rfl

theorem getSpin_of_shared (ht : xs.take r = ys.take r) (hr : r ≤ xs.length) (hlen : xs.length < 2 ^ 64)
    (htx : (viewOf xs).txBlockHeight txid = some h) (hd : beaconEnd cfg h ≤ r)
    (hx : h + cfg.spinnerPvrbBlockWindow < (viewOf xs).height)
    (hy : h + cfg.spinnerPvrbBlockWindow < (viewOf ys).height) :
    (viewOf xs).getSpin cfg txid m = (viewOf ys).getSpin cfg txid m := by
  have hty : (viewOf ys).txBlockHeight txid = some h := by
    obtain ⟨i, hi, rfl⟩ := Option.map_eq_some_iff.mp htx
    have hl : i < xs.length := (List.findIdx?_eq_some_iff_findIdx_eq.mp hi).1
    have ha : (UInt64.ofNat i).toNat = i := UInt64.toNat_ofNat_of_lt' (Nat.lt_trans hl hlen)
    have hir : i < r := by
      unfold beaconEnd at hd
      omega
    exact congrArg (Option.map UInt64.ofNat) (findIdx?_of_take ht hir hi)
  refine ChainView.getSpin_congr htx hty ?_ (by omega) hx hy
  intro n hn
  have hg : xs[n.toNat]? = ys[n.toNat]? := by
    have hs : (xs.take r)[n.toNat]? = xs[n.toNat]? := List.getElem?_take_of_lt (by omega)
    have hys : (ys.take r)[n.toNat]? = ys[n.toNat]? := List.getElem?_take_of_lt (by omega)
    rw [← hs, ← hys, ht]
  exact congrArg (Option.map (·.hash)) hg

end

abbrev LinkedBlocks (blocks : List Block) : Prop := IsLinked Block.hash Block.prevId nullHash blocks

/-- Every block is stored with the gyro of its chain, and `S` holds of it. -/
structure TrueChain (cfg : Config) (S : Block → Prop) (db : Db) : Prop where
  txs : db.TxsNamed
  met : ∀ b ∈ db.blocks, S b
  linked : LinkedBlocks db.blocks.reverse
  gyro : ∀ (i : Nat) (e : BlockEntry), db.entries[i]? = some e →
    e.gyro = chainGyro cfg (db.blocks.take (i + 1)).reverse

variable {env : Env} {fuel : Nat} {now : UInt64} {S : Block → Prop} {db' : Db} {st st' : Blockchain} {b : Block}
  {e : BlockEntry}

theorem topBlockHash_eq (db : Db) : db.topBlockHash = topHash Block.hash nullHash db.blocks.reverse := by
  unfold Db.topBlockHash Db.blocks
  rw [← map_reverse]
  cases hl : db.entries.reverse with
  | nil => simp [reverse_eq_nil_iff.mp hl, topHash]
  | cons e rest =>
    have hn : db.entries = rest.reverse ++ [e] := by
      rw [← reverse_reverse db.entries, hl, reverse_cons]
    rw [hn, List.getLast?_concat]
    rfl

theorem empty_trueChain : TrueChain cfg S Db.empty := by
  refine ⟨?_, ?_, trivial, ?_⟩
  · intro e he
    cases he
  · intro b hb
    cases hb
  · intro i e he
    cases he

theorem TrueChain.currentGyro (h : TrueChain cfg S db) : currentGyro db = chainGyro cfg db.blocks.reverse := by
  unfold Gyro.currentGyro
  cases hl : db.entries.getLast? with
  | none =>
    have hn : db.entries = [] := List.getLast?_eq_none_iff.mp hl
    simp [Db.blocks, hn, chainGyro]
  | some e =>
    have hne : db.entries ≠ [] := by
      intro hn
      rw [hn] at hl
      cases hl
    have hp := length_pos_of_ne_nil hne
    have ha : db.entries[db.entries.length - 1]? = some e := by
      rw [← List.getLast?_eq_getElem?]
      exact hl
    have hg := h.gyro _ e ha
    rw [Nat.sub_add_cancel hp] at hg
    have hal : db.blocks.take db.entries.length = db.blocks :=
      take_of_length_le (by simp [Db.blocks])
    rw [hal] at hg
    exact hg

theorem TrueChain.removeBlock (h : TrueChain cfg S db) (hp : db.removeBlock = .ok (db', e)) : TrueChain cfg S db' := by
  have hn := (Db.removeBlock_eq_ok hp).1
  have hl : db.blocks = db'.blocks ++ [e.block] := by
    unfold Db.blocks
    rw [hn, map_append, map_singleton]
  refine ⟨?_, ?_, ?_, ?_⟩
  · intro e' he'
    exact h.txs e' (by rw [hn]; exact mem_append_left _ he')
  · intro b hb
    exact h.met b (by rw [hl]; exact mem_append_left _ hb)
  · have hli := h.linked
    rw [hl, reverse_append] at hli
    exact hli.2
  · intro i e' he'
    have hi : i < db'.entries.length := (List.getElem?_eq_some_iff.mp he').1
    have hold : db.entries[i]? = some e' := by
      rw [hn, List.getElem?_append_left hi]
      exact he'
    rw [h.gyro i e' hold, hl, take_append_of_le_length (by simp [Db.blocks]; omega)]

variable {weight fee : UInt64}

theorem verified_spin {v : Verified} (ht : db.TxsNamed) (h : verifyBlock env fuel now db b weight fee = .ok v) :
    v.spin = blockSpin env.cfg db.blocks.reverse b := by
  obtain ⟨_, hl, ha, hst⟩ := verifyBlock_eq_ok h
  have hh : UInt64.ofNat db.blocks.reverse.length = db.height := by
    simp [Db.blocks, Db.height]
  unfold blockSpin
  rw [hh, reverse_reverse, ← Db.view_eq ht]
  by_cases hs : env.cfg.startAmountBlocks < db.height
  · obtain ⟨d, locked, hd, _, hda⟩ := getSpinnerTransactionLocked_above hs hl
    obtain ⟨hp, _⟩ := verifySpin_eq_ok (ha hs)
    rw [hda] at hp
    change db.view.getSpin env.cfg d.nfo.proof.txid d.spin = .ok (some v.spin) at hp
    rw [if_pos hs, spinnerData_of_spinData? hd, hp]
  · rw [if_neg hs]
    exact hst hs

theorem TrueChain.nextGyro (h : TrueChain env.cfg S db) {v : Verified}
    (hv : verifyBlock env fuel now db b weight fee = .ok v) :
    nextGyro db v.spin = chainGyro env.cfg (b :: db.blocks.reverse) := by
  have hh : UInt64.ofNat db.blocks.reverse.length = db.height := by
    simp [Db.blocks, Db.height]
  unfold Gyro.nextGyro
  rw [chainGyro, hh, h.currentGyro, verified_spin h.txs hv]

theorem TrueChain.added (h : TrueChain env.cfg S st.db) (hb : S b)
    (hd : handleBlockToMainChain env fuel now st b = .added st') :
    TrueChain env.cfg S st'.db ∧ st'.db.blocks = st.db.blocks ++ [b] ∧ st'.altBlocks = st.altBlocks := by
  obtain ⟨t, weight, v, ha⟩ := handle_added hd
  have hn := (Db.addBlock_eq_ok ha.written).2.1
  have hl : st'.db.blocks = st.db.blocks ++ [b] := by
    unfold Db.blocks
    rw [hn, map_append]
    rfl
  have ht := takeTxs_eq_ok takenFrom_nil ha.taken
  obtain ⟨hp, _⟩ := headerRejection_none ha.header
  refine ⟨⟨?_, ?_, ?_, ?_⟩, hl, by rw [ha.state]⟩
  · intro e he
    rw [hn] at he
    obtain hold | hnw := mem_append.mp he
    · exact h.txs e hold
    · rw [mem_singleton.mp hnw]
      exact ht.takes.hashes
  · intro c hc
    rw [hl] at hc
    obtain hold | hnw := mem_append.mp hc
    · exact h.met c hold
    · rw [mem_singleton.mp hnw]
      exact hb
  · rw [hl, reverse_append]
    exact ⟨hp.trans (topBlockHash_eq st.db), h.linked⟩
  · intro i e he
    rw [hn] at he
    obtain ⟨hi, hold⟩ | ⟨rfl, rfl⟩ := getElem?_concat_cases he
    · rw [h.gyro i e hold, hl, take_append_of_le_length (by simp [Db.blocks]; omega)]
    · have hal : (st.db.blocks ++ [b]).take (st.db.entries.length + 1) = st.db.blocks ++ [b] :=
        take_of_length_le (by simp [Db.blocks])
      rw [hl, hal, reverse_append]
      exact h.nextGyro ha.verified

end Gyro
