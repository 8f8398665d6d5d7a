import Gyro.AddBlock
import Gyro.Lib.Ratio

/-!
# Fork choice

The fork choice compares the gyros that alternative blocks were stored with. They
agree with the main chain's where the blocks shared their beacons, and then no node
comes back to a tip it has left.
-/

namespace Gyro

open Runs LastIndex Linked List

section
variable {env : Env} {fuel : Nat} {now : UInt64} {S : Block → Prop} {st st' : Blockchain}
  {chain : List AltBlock}

theorem TrueChain.entry_agrees (hS : Distinct Block.hash nullHash S) {cfg : Config} {db : Db}
    (h : TrueChain cfg S db) {i : Nat} {e : BlockEntry} (he : db.entries[i]? = some e) {id : Hash}
    {ab : AltBlock} (ha : TrueAlt cfg S id ab) (hi : e.block = ab.block) : e.gyro = ab.cumulativeGyro := by
  obtain ⟨hl, hme, ht, _⟩ := h.upTo he
  obtain ⟨rest, hr, hs, _, hg⟩ := ha.chain
  have hall : ∀ b ∈ ab.block :: rest, S b := by
    intro b hb
    cases hb with
    | head => exact ha.met
    | tail _ hb => exact hs b hb
  have hsa : (db.blocks.take (i + 1)).reverse = ab.block :: rest :=
    hl.unique hS hr hme hall (ht.trans (by rw [hi]; rfl))
  rw [h.gyro i e he, hsa, hg]

theorem connect_agrees (hS : Distinct Block.hash nullHash S) (hs : TrueNode env.cfg S st)
    (hc : ∀ ab ∈ chain, TrueAlt env.cfg S ab.block.hash ab)
    (h : connect env fuel now st (chain.map (·.block)) = .all st') :
    TrueNode env.cfg S st' ∧ ∃ es, st'.db.entries = st.db.entries ++ es ∧
      es.map (fun e => (e.block, e.gyro)) = chain.map (fun ab => (ab.block, ab.cumulativeGyro)) := by
  induction chain generalizing st with
  | nil =>
    cases h
    exact ⟨hs, [], by simp, rfl⟩
  | cons ab chain ih =>
    rw [map_cons, connect] at h
    have ha := hc ab mem_cons_self
    split at h
    · rename_i mid hd
      obtain ⟨t, weight, v, hac⟩ := handle_added hd
      have hn := (Db.addBlock_eq_ok hac.written).2.1
      have hi : TrueNode env.cfg S mid := by
        have hh := @TrueNode.handle env fuel now S st ab.block hs ha.met
        rw [hd] at hh
        exact hh
      obtain ⟨hs', es, hes, hp⟩ :=
        ih hi (fun ab' ha' => hc ab' (mem_cons_of_mem _ ha')) h
      refine ⟨hs', newEntry st.db ab.block t.txs weight v :: es, ?_, ?_⟩
      · rw [hes, hn, append_assoc]
        rfl
      · have hl : mid.db.entries[st.db.entries.length]? =
            some (newEntry st.db ab.block t.txs weight v) := by
          rw [hn, List.getElem?_concat_length]
        have hg := hi.main.entry_agrees hS hl ha rfl
        rw [map_cons, hp, hg]
        rfl
    · cases h
    · cases h

theorem TrueNode.popUntil (ht : TrueNode env.cfg S st) {stop : Db → Bool} {n : Nat} {old : List Block}
    (h : Gyro.popUntil stop n st [] = .ok (st', old)) :
    TrueNode env.cfg S st' ∧ ∃ tail, st.db.entries = st'.db.entries ++ tail := by
  refine (@popUntil_rule (fun s _ => TrueNode env.cfg S s ∧ ∃ tail, st.db.entries = s.db.entries ++ tail)
    stop ?_ n st [] ⟨ht, [], by simp⟩).1 st' old h
  rintro s _ s' b ⟨hs, tail, ha⟩ hp
  obtain ⟨e, hr, _⟩ := popBlock_eq_ok hp
  refine ⟨hs.pop hp, e :: tail, ?_⟩
  rw [ha, (Db.removeBlock_eq_ok hr).1, append_assoc]
  rfl

theorem TrueNode.stored (hs : TrueNode env.cfg S st) (hr : ∀ ab ∈ chain, ∃ id, st.altBlocks id = some ab) :
    ∀ ab ∈ chain, TrueAlt env.cfg S ab.block.hash ab := by
  intro ab hb
  obtain ⟨id, hi⟩ := hr ab hb
  have ha := hs.alt id ab hi
  rw [ha.hash]
  exact ha

theorem connectChain_agrees (hS : Distinct Block.hash nullHash S) (hs : TrueNode env.cfg S st)
    (hc : ∀ ab ∈ chain, TrueAlt env.cfg S ab.block.hash ab) (h : connectChain env fuel now st chain = some st') :
    TrueNode env.cfg S st' ∧ ∃ below es, st.db.entries.take below.length = below ∧ st'.db.entries = below ++ es ∧
      es.map (fun e => (e.block, e.gyro)) = chain.map (fun ab => (ab.block, ab.cumulativeGyro)) := by
  unfold connectChain at h
  split at h
  · cases h
  · split at h
    · cases h
    · rename_i popped old hp
      split at h
      · rename_i connected ho
        cases h
        obtain ⟨hpp, tail, ht⟩ := hs.popUntil hp
        obtain ⟨hs', es, hes, ha⟩ := connect_agrees hS hpp hc ho
        exact ⟨hs', popped.db.entries, es, by rw [ht, take_left], hes, ha⟩
      · cases h

end

/-- While each alternative block shares its beacon when it is stored, a stored chain that is
connected keeps the gyros it was stored with. -/
theorem alternative_gyro_agrees {env : Env} {fuel : Nat} {now : UInt64} {S : Block → Prop}
    {st st' : Blockchain} {chain : List AltBlock} (hS : Distinct Block.hash nullHash S)
    (hst : ReachedSharing env fuel S st) (hstored : ∀ ab ∈ chain, ∃ id, st.altBlocks id = some ab)
    (hconnect : connectChain env fuel now st chain = some st') :
    ∃ below es, st.db.entries.take below.length = below ∧ st'.db.entries = below ++ es ∧
      es.map (fun e => (e.block, e.gyro)) = chain.map (fun ab => (ab.block, ab.cumulativeGyro)) := by
  have ht := hst.trueNode hS
  exact (connectChain_agrees hS ht (ht.stored hstored) hconnect).2

/-- One more than the sum of the modules, over one more than the module of the sum. -/
def GyroType.ratio (g : GyroType) : ℚ :=
  ((g.M.toNat + 1 : Nat) : ℚ) / ((g.getModule.toNat + 1 : Nat) : ℚ)

def GyroType.Small (g : GyroType) : Prop := g.M.toNat < 2 ^ 126 ∧ g.getModule.toNat < 2 ^ 126

instance (g : GyroType) : Decidable g.Small := inferInstanceAs (Decidable (_ ∧ _))

theorem succ_toNat {x : BitVec 128} (h : x.toNat < 2 ^ 126) : (x + 1).toNat = x.toNat + 1 := by
  exact Nat.mod_eq_of_lt (by change x.toNat + 1 < 2 ^ 128; omega)

theorem setWidth_toNat (x : BitVec 128) : (x.setWidth 256).toNat = x.toNat := by
  rw [BitVec.toNat_setWidth]
  exact Nat.mod_eq_of_lt (by omega)

theorem chainWeight_toNat {scale : BitVec 128} {g : GyroType} (hs : scale.toNat < 2 ^ 127) (hg : g.Small) :
    (chainWeight scale g).toNat = scale.toNat * (g.M.toNat + 1) / (g.getModule.toNat + 1) := by
  obtain ⟨hM, hm⟩ := hg
  have hp : scale.toNat * (g.M.toNat + 1) < 2 ^ 256 := by
    calc scale.toNat * (g.M.toNat + 1) ≤ 2 ^ 127 * 2 ^ 126 :=
          Nat.mul_le_mul (Nat.le_of_lt hs) (by omega)
      _ < 2 ^ 256 := by norm_num
  unfold chainWeight
  rw [BitVec.toNat_udiv, BitVec.toNat_mul, setWidth_toNat, setWidth_toNat, setWidth_toNat,
    succ_toNat hM, succ_toNat hm, Nat.mod_eq_of_lt hp]

/-- The chain that outweighs has the greater exact ratio. -/
theorem ratio_lt_of_outweighs {g g' : GyroType} (hg : g.Small) (hg' : g'.Small)
    (h : outweighs g g' = true) : g.ratio < g'.ratio := by
  have hs : (g.M + g'.M).toNat < 2 ^ 127 := by
    have hM := hg.1
    have hM' := hg'.1
    rw [BitVec.toNat_add]
    omega
  unfold outweighs at h
  rw [decide_eq_true_eq, BitVec.lt_def, chainWeight_toNat hs hg, chainWeight_toNat hs hg'] at h
  exact Ratio.div_lt_div_of_scaled (Nat.succ_pos _) (Nat.succ_pos _) h

section
variable {env : Env} {fuel : Nat} {now : UInt64} {S : Block → Prop} {st st' : Blockchain} {b : Block}

theorem TrueChain.gyro_of_top (hS : Distinct Block.hash nullHash S) {cfg : Config} {db db' : Db}
    (h : TrueChain cfg S db) (h' : TrueChain cfg S db') (ht : db.topBlockHash = db'.topBlockHash) :
    Gyro.currentGyro db = Gyro.currentGyro db' := by
  have hs : db.blocks.reverse = db'.blocks.reverse := by
    refine h.linked.unique hS h'.linked ?_ ?_ ?_
    · intro b hb
      exact h.met b (mem_reverse.mp hb)
    · intro b hb
      exact h'.met b (mem_reverse.mp hb)
    · rw [← topBlockHash_eq, ← topBlockHash_eq, ht]
  rw [h.currentGyro, h'.currentGyro, hs]

theorem currentGyro_of_pairs {db : Db} {low es : List BlockEntry} {below : List AltBlock}
    {ab : AltBlock} (hn : db.entries = low ++ es) (hp : es.map (fun e => (e.block, e.gyro)) =
      (below ++ [ab]).map (fun ab => (ab.block, ab.cumulativeGyro))) : currentGyro db = ab.cumulativeGyro := by
  rw [map_append] at hp
  obtain ⟨es', last, rfl, _, hl⟩ := map_eq_append_iff.mp hp
  obtain ⟨e, rfl, hr⟩ := map_eq_singleton_iff.mp hl
  unfold currentGyro
  rw [hn, ← append_assoc, List.getLast?_concat]
  exact congrArg Prod.snd hr

theorem switchByWeight_tip (hS : Distinct Block.hash nullHash S) (ht : TrueNode env.cfg S st)
    (hme : S b) (hb : BeaconShared env.cfg fuel st b) (h : switchByWeight env fuel now st b = some st') :
    TrueNode env.cfg S st' ∧ outweighs (currentGyro st.db) (currentGyro st'.db) = true := by
  obtain ⟨kept, chain, ab, hs, ho, hc⟩ := switchByWeight_eq_some h
  have hk := (ht.store hS hme hb hs).1
  have hh := hk.stored (storeAlternative_stored hs)
  obtain ⟨hs', below, es, _, hn, hp⟩ := connectChain_agrees hS hk hh hc
  obtain ⟨_, _, _, _, hss⟩ := storeAlternative_eq_ok hs
  rw [hss.chain] at hp
  exact ⟨hs', by rw [currentGyro_of_pairs hn hp]; exact ho⟩

end

structure WeightSwitch (env : Env) (fuel : Nat) (S : Block → Prop) where
  before : Blockchain
  after : Blockchain
  now : UInt64
  block : Block
  reached : ReachedSharing env fuel S before
  met : S block
  shares : BeaconShared env.cfg fuel before block
  switches : switchByWeight env fuel now before block = some after
  smallBefore : (currentGyro before.db).Small
  smallAfter : (currentGyro after.db).Small

namespace WeightSwitch

section
variable {env : Env} {fuel : Nat} {S : Block → Prop}

/-- The next reorganization starts on the main chain the last one left. -/
def Follows (u w : WeightSwitch env fuel S) : Prop := w.before.db.blocks = u.after.db.blocks

variable (hS : Distinct Block.hash nullHash S)
include hS

theorem true_before (w : WeightSwitch env fuel S) : TrueNode env.cfg S w.before := w.reached.trueNode hS

theorem true_after (w : WeightSwitch env fuel S) : TrueNode env.cfg S w.after :=
  (switchByWeight_tip hS (w.true_before hS) w.met w.shares w.switches).1

theorem ratio_lt (w : WeightSwitch env fuel S) : (currentGyro w.before.db).ratio < (currentGyro w.after.db).ratio :=
  ratio_lt_of_outweighs w.smallBefore w.smallAfter
    (switchByWeight_tip hS (w.true_before hS) w.met w.shares w.switches).2

variable {u w : WeightSwitch env fuel S}

theorem ratio_le_of_follows (h : u.Follows w) : (currentGyro u.after.db).ratio ≤ (currentGyro w.before.db).ratio := by
  rw [(u.true_after hS).main.currentGyro, (w.true_before hS).main.currentGyro, h]

theorem top_ne_of_lt (h : (currentGyro u.before.db).ratio < (currentGyro w.after.db).ratio) :
    w.after.db.topBlockHash ≠ u.before.db.topBlockHash := by
  intro ht
  rw [(w.true_after hS).main.gyro_of_top hS (u.true_before hS).main ht] at h
  exact lt_irrefl _ h

theorem pairwise_ratio_le {ws : List (WeightSwitch env fuel S)} (h : ws.IsChain Follows) :
    ws.Pairwise fun u w => (currentGyro u.after.db).ratio ≤ (currentGyro w.before.db).ratio := by
  induction ws with
  | nil => exact List.Pairwise.nil
  | cons u ws ih =>
    have hr := ih h.tail
    refine List.Pairwise.cons ?_ hr
    cases ws with
    | nil =>
      intro w hw
      cases hw
    | cons v ws =>
      have hu := ratio_le_of_follows hS (isChain_cons_cons.mp h).1
      intro w hw
      cases hw with
      | head => exact hu
      | tail _ hw =>
        calc (currentGyro u.after.db).ratio ≤ (currentGyro v.before.db).ratio := hu
          _ ≤ (currentGyro v.after.db).ratio := le_of_lt (v.ratio_lt hS)
          _ ≤ (currentGyro w.before.db).ratio := (pairwise_cons.mp hr).1 w hw

end

end WeightSwitch

/-- The exact ratio of the tip strictly grows, no sequence of reorganizations comes back to a tip,
and two nodes that hold each other's chain do not both switch. -/
theorem fork_choice_acyclic {env : Env} {fuel : Nat} {S : Block → Prop}
    (hS : Distinct Block.hash nullHash S) : (∀ w : WeightSwitch env fuel S,
      (currentGyro w.before.db).ratio < (currentGyro w.after.db).ratio) ∧
    (∀ ws : List (WeightSwitch env fuel S), ws.IsChain WeightSwitch.Follows →
      (∀ w ∈ ws, w.after.db.topBlockHash ≠ w.before.db.topBlockHash) ∧
      ws.Pairwise fun u w => w.after.db.topBlockHash ≠ u.before.db.topBlockHash) ∧
    (∀ u w : WeightSwitch env fuel S, u.after.db.topBlockHash = w.before.db.topBlockHash →
      w.after.db.topBlockHash ≠ u.before.db.topBlockHash) := by
  refine ⟨fun w => w.ratio_lt hS, ?_, ?_⟩
  · intro ws hc
    refine ⟨fun w _ => WeightSwitch.top_ne_of_lt hS (w.ratio_lt hS), ?_⟩
    refine (WeightSwitch.pairwise_ratio_le hS hc).imp ?_
    intro u w hle
    apply WeightSwitch.top_ne_of_lt hS
    calc (currentGyro u.before.db).ratio < (currentGyro u.after.db).ratio := u.ratio_lt hS
      _ ≤ (currentGyro w.before.db).ratio := hle
      _ < (currentGyro w.after.db).ratio := w.ratio_lt hS
  · intro u w ht
    apply WeightSwitch.top_ne_of_lt hS
    have hs := (u.true_after hS).main.gyro_of_top hS (w.true_before hS).main ht
    calc (currentGyro u.before.db).ratio < (currentGyro u.after.db).ratio := u.ratio_lt hS
      _ = (currentGyro w.before.db).ratio := by rw [hs]
      _ < (currentGyro w.after.db).ratio := w.ratio_lt hS

/-! ## A fork at height 5, the beacon of bob's lock transaction -/

namespace Sample

def fifth (id : Nat) : Block :=
  forkBlock id (blockId 4) 5 39997744859481 (forkData (spinner 1 5001))

def daveAtFive : Block := forkBlock 2016 (blockId 4) 5 39997744859481 (forkData (spinner 2 5002))

def sixth (id prevId k : Nat) (txid : Hash) : Block :=
  forkBlock id (BitVec.ofNat 256 prevId) 6 39997658128197 (forkData (spinner k txid))

def daveOnMain : Block := sixth 3006 2006 2 5003
def bobOnFork : Block := sixth 3008 2008 3 5004

def forkBlocks : List Block :=
  (List.range 5).map (startBlock forkConfig) ++
    [fifth 2006, fifth 2008, daveAtFive, daveOnMain, bobOnFork]

def Met (b : Block) : Prop := b ∈ forkBlocks

instance (b : Block) : Decidable (Met b) := inferInstanceAs (Decidable (b ∈ forkBlocks))

theorem met_distinct : Distinct Block.hash nullHash Met := by
  constructor
  · intro b c hb hc hh
    have hn : (forkBlocks.map (·.hash)).Nodup := by decide +kernel
    exact inj_on_of_nodup_map hn hb hc hh
  · have ha : ∀ b ∈ forkBlocks, b.hash ≠ nullHash := by decide +kernel
    exact ha

theorem startOps_brings : ∀ op ∈ startOps, op.Brings Met := by
  intro op ho
  obtain ⟨h, hh, rfl⟩ := mem_map.mp ho
  exact mem_append_left _ (mem_map_of_mem hh)

theorem shared_fork : ∃ s t, ReachedSharing (env forkConfig) 3 Met s ∧ BeaconShared forkConfig 3 s (fifth 2008) ∧
      switchByWeight (env forkConfig) 3 clock s (fifth 2008) = some t ∧
      (currentGyro s.db).Small ∧ (currentGyro t.db).Small := by
  have hv : ((run (nodeStep (env forkConfig) 3) node (startOps ++ [.handle clock daveAtFive])).bind fun s =>
      (switchByWeight (env forkConfig) 3 clock s (fifth 2008)).map fun t =>
        decide (BeaconShared forkConfig 3 s (fifth 2008) ∧
          (currentGyro s.db).Small ∧ (currentGyro t.db).Small)) = some true := by
    decide +kernel
  obtain ⟨s, hs, ht⟩ := Option.bind_eq_some_iff.mp hv
  obtain ⟨t, ht, hf⟩ := Option.map_eq_some_iff.mp ht
  obtain ⟨hh, hsm, hs'⟩ := of_decide_eq_true hf
  refine ⟨s, t, ?_, hh, ht, hsm, hs'⟩
  refine ⟨node, _, ⟨rfl, fun _ => rfl⟩, hs, everyStep_of_forall ?_⟩
  intro op ho u
  obtain ha | hd := mem_append.mp ho
  · refine ⟨startOps_brings op ha, ?_⟩
    obtain ⟨h, _, rfl⟩ := mem_map.mp ha
    trivial
  · rw [mem_singleton.mp hd]
    exact ⟨show Met daveAtFive by decide +kernel, trivial⟩

def mainOps : List NodeOp :=
  startOps ++ [.handle clock (fifth 2006), .handle clock daveOnMain, .store (fifth 2008)]

theorem mainOps_brings : ∀ op ∈ mainOps, op.Brings Met := by
  intro op ho
  obtain hs | hr := mem_append.mp ho
  · exact startOps_brings op hs
  · simp only [mem_cons, not_mem_nil, or_false] at hr
    obtain rfl | rfl | rfl := hr
    · exact show Met (fifth 2006) by decide +kernel
    · exact show Met daveOnMain by decide +kernel
    · exact show Met (fifth 2008) by decide +kernel

def backOps : List NodeOp :=
  [.removeAlt (fifth 2008).hash, .removeAlt bobOnFork.hash, .store (fifth 2006)]

theorem returning_fork : ∃ s t s' t', Reached (env forkConfig) 3 Met s ∧
      switchByWeight (env forkConfig) 3 clock s bobOnFork = some t ∧
      run (nodeStep (env forkConfig) 3) t backOps = some s' ∧
      switchByWeight (env forkConfig) 3 clock s' daveOnMain = some t' ∧
      s'.db.blocks = t.db.blocks ∧ t'.db.topBlockHash = s.db.topBlockHash ∧
      ((currentGyro s.db).Small ∧ (currentGyro t.db).Small ∧ (currentGyro t'.db).Small) ∧
      (currentGyro t.db).ratio < (currentGyro s.db).ratio := by
  have hv : ((run (nodeStep (env forkConfig) 3) node mainOps).bind fun s =>
      (switchByWeight (env forkConfig) 3 clock s bobOnFork).bind fun t =>
        (run (nodeStep (env forkConfig) 3) t backOps).bind fun s' =>
          (switchByWeight (env forkConfig) 3 clock s' daveOnMain).map fun t' =>
            decide (s'.db.blocks = t.db.blocks ∧ t'.db.topBlockHash = s.db.topBlockHash ∧
              ((currentGyro s.db).M.toNat = 3242 ∧ (currentGyro s.db).getModule.toNat = 2330) ∧
              ((currentGyro t.db).M.toNat = 3242 ∧ (currentGyro t.db).getModule.toNat = 2411) ∧
              (currentGyro t'.db).M.toNat = 3242 ∧ (currentGyro t'.db).getModule.toNat = 2330)) =
      some true := by
    decide +kernel
  obtain ⟨s, hs, hr⟩ := Option.bind_eq_some_iff.mp hv
  obtain ⟨t, ht, hr⟩ := Option.bind_eq_some_iff.mp hr
  obtain ⟨s', hs', hr⟩ := Option.bind_eq_some_iff.mp hr
  obtain ⟨t', ht', hf⟩ := Option.map_eq_some_iff.mp hr
  obtain ⟨hb, ho, ⟨hM, hm⟩, ⟨hM', hm'⟩, hM'', hm''⟩ := of_decide_eq_true hf
  refine ⟨s, t, s', t', ?_, ht, hs', ht', hb, ho, ⟨?_, ?_, ?_⟩, ?_⟩
  · exact ⟨node, ⟨rfl, fun _ => rfl⟩, mainOps, hs, mainOps_brings⟩
  · unfold GyroType.Small
    omega
  · unfold GyroType.Small
    omega
  · unfold GyroType.Small
    omega
  · unfold GyroType.ratio
    rw [hM, hm, hM', hm']
    norm_num

end Sample

open Sample in
theorem alternative_gyro_agrees_on_shared_fork : ∃ st st' chain, ReachedSharing (env forkConfig) 3 Met st ∧
      (∀ ab ∈ chain, ∃ id, st.altBlocks id = some ab) ∧ connectChain (env forkConfig) 3 clock st chain = some st' ∧
      ∃ below es, st.db.entries.take below.length = below ∧ st'.db.entries = below ++ es ∧
        es.map (fun e => (e.block, e.gyro)) =
          chain.map (fun ab => (ab.block, ab.cumulativeGyro)) := by
  obtain ⟨s, t, hs, hh, hsw, _⟩ := shared_fork
  obtain ⟨kept, chain, ab, ho, _, hc⟩ := switchByWeight_eq_some hsw
  have hme : NodeOp.Brings Met (.store (fifth 2008)) := show Met (fifth 2008) by decide +kernel
  have hk : ReachedSharing (env forkConfig) 3 Met kept :=
    hs.concat hme hh (nodeStep_store.mpr ⟨chain, ab, ho⟩)
  have hr := storeAlternative_stored ho
  exact ⟨kept, t, chain, hk, hr, hc, alternative_gyro_agrees met_distinct hk hr hc⟩

open Sample in
/-- Bob's block was stored with another gyro than the main chain gives it. -/
theorem alternative_gyro_differs :
    ∃ st st' chain, Distinct Block.hash nullHash Met ∧ Reached (env forkConfig) 3 Met st ∧
      (∀ ab ∈ chain, ∃ id, st.altBlocks id = some ab) ∧ connectChain (env forkConfig) 3 clock st chain = some st' ∧
      ¬ ∃ below es, st.db.entries.take below.length = below ∧ st'.db.entries = below ++ es ∧
        es.map (fun e => (e.block, e.gyro)) =
          chain.map (fun ab => (ab.block, ab.cumulativeGyro)) := by
  obtain ⟨s, t, _, _, hs, hsw, _, _, _, _, ⟨hsm, hs', _⟩, hr⟩ := returning_fork
  obtain ⟨kept, chain, ab, ho, hu, hc⟩ := switchByWeight_eq_some hsw
  have hme : NodeOp.Brings Met (.store bobOnFork) := show Met bobOnFork by decide +kernel
  have hk : Steps (env forkConfig) 3 Met s kept :=
    Reaches.single hme (nodeStep_store.mpr ⟨chain, ab, ho⟩)
  refine ⟨kept, t, chain, met_distinct, hs.steps hk, storeAlternative_stored ho, hc, ?_⟩
  rintro ⟨below, es, _, hn, hp⟩
  obtain ⟨_, _, _, _, hss⟩ := storeAlternative_eq_ok ho
  rw [hss.chain] at hp
  rw [← currentGyro_of_pairs hn hp] at hu
  exact lt_asymm hr (ratio_lt_of_outweighs hsm hs' hu)

open Sample in
theorem fork_choice_acyclic_on_shared_fork : ∃ w : WeightSwitch (env forkConfig) 3 Met,
      (currentGyro w.before.db).ratio < (currentGyro w.after.db).ratio ∧
      w.after.db.topBlockHash ≠ w.before.db.topBlockHash := by
  obtain ⟨s, t, hs, hh, hsw, hsm, hs'⟩ := shared_fork
  have hme : Met (fifth 2008) := by decide +kernel
  let w : WeightSwitch (env forkConfig) 3 Met :=
    ⟨s, t, clock, fifth 2008, hs, hme, hh, hsw, hsm, hs'⟩
  obtain ⟨hg, hse, _⟩ := @fork_choice_acyclic (env forkConfig) 3 Met met_distinct
  exact ⟨w, hg w, (hse [w] (isChain_singleton w)).1 w mem_cons_self⟩

open Sample in
/-- A node leaves dave's tip for bob's, of a smaller ratio, and comes back. -/
theorem fork_choice_returns : ∃ s t s' t', Distinct Block.hash nullHash Met ∧ Reached (env forkConfig) 3 Met s ∧
      switchByWeight (env forkConfig) 3 clock s bobOnFork = some t ∧
      Reached (env forkConfig) 3 Met s' ∧ s'.db.blocks = t.db.blocks ∧
      switchByWeight (env forkConfig) 3 clock s' daveOnMain = some t' ∧
      ((currentGyro s.db).Small ∧ (currentGyro t.db).Small ∧ (currentGyro t'.db).Small) ∧
      (currentGyro t.db).ratio < (currentGyro s.db).ratio ∧
      t'.db.topBlockHash = s.db.topBlockHash := by
  obtain ⟨s, t, s', t', hs, ht, hs', ht', hb, hto, hsm, hr⟩ := returning_fork
  refine ⟨s, t, s', t', met_distinct, hs, ht, ?_, hb, ht', hsm, hr, hto⟩
  have hme : Met bobOnFork := by decide +kernel
  refine (hs.switchByWeight hme ht).steps ⟨backOps, hs', ?_⟩
  intro op ho
  simp only [backOps, mem_cons, not_mem_nil, or_false] at ho
  obtain rfl | rfl | rfl := ho
  · trivial
  · trivial
  · exact show Met (fifth 2006) by decide +kernel

end Gyro
