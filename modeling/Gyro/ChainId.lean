import Mathlib.Data.List.Dedup
import Gyro.Db
import Gyro.Crypto.Keccak

/-!
# The chain id of a configuration

`get_cryptonote_config_hash` hashes the parameters one after the other. Each call of
`cn_fast_hash` overwrites the buffer, which at the end holds the last hash alone.
-/

namespace Gyro

inductive NetworkType where
  | mainnet
  | testnet
  | stagenet
  | fakechain
  deriving DecidableEq

structure NetParams where
  publicAddressBase58Prefix : UInt64
  publicSubaddressBase58Prefix : UInt64
  publicIntegratedAddressBase58Prefix : UInt64
  genesisNonce : UInt32
  networkId : BitVec 128
  deriving DecidableEq

structure CryptonoteConfig extends Config where
  cryptonoteName : Blob
  cryptonoteDisplayDecimalPoint : UInt32
  durationTargetLag : UInt64
  spinnerIntervalDynamicFactor : UInt64
  mempoolTxLivetime : UInt64
  mempoolTxFromAltBlockLivetime : UInt64
  messageTxLivetime : UInt64
  messageTxAmount : UInt64
  dandelionppEnable : Bool
  txExtraSmsMaxCount : UInt64
  gyroDonationAddr : Blob
  mainnet : NetParams
  testnet : NetParams
  stagenet : NetParams

inductive Param where
  /-- `s.c_str(), s.length()`. -/
  | text (s : Blob)
  | uint32 (n : UInt32)
  | uint64 (n : UInt64)
  | flag (b : Bool)
  /-- `&s, sizeof(s)` of a `std::string`: the bytes of the string object. -/
  | object (s : Blob)
  | uuid (id : BitVec 128)
  deriving DecidableEq

section
-- `mem s` is what memory holds at the string object whose text is `s`
variable (mem : Blob → Blob)

def Param.bytes : Param → Blob
  | text s => s
  | uint32 n => bytesOf 4 n.toBitVec
  | uint64 n => bytesOf 8 n.toBitVec
  | flag b => [if b then 1 else 0]
  | object s => mem s
  | uuid id => bytesOf 16 id

/-- `cn_fast_hash(data, length, hash)`: what the buffer `hash` holds afterwards. -/
def cnFastHashInto (data : Blob) (_hash : Hash) : Hash := cnFastHash data

def hashParams (ps : List Param) : Hash :=
  ps.foldl (fun hash p => cnFastHashInto (p.bytes mem) hash) nullHash

def NetParams.listed (n : NetParams) : List Param :=
  [.uint64 n.publicAddressBase58Prefix, .uint64 n.publicSubaddressBase58Prefix,
    .uint64 n.publicIntegratedAddressBase58Prefix, .uint32 n.genesisNonce, .uuid n.networkId]

namespace CryptonoteConfig

def listedCommon (c : CryptonoteConfig) : List Param :=
  [.uint64 c.durationTarget, .uint64 c.durationTargetLag, .uint64 c.startAmountBlocks,
    .uint64 c.startAmount, .uint64 c.spinnerAmountMinLock, .uint64 c.spinnerMomentOfInertia,
    .uint64 c.spinnerDampingRatioDivider, .uint64 c.spinnerEnergyCostMultiplier,
    .uint64 c.spinnerIntervalDynamicFactor, .uint64 c.spinnerPvrbBlockWindow,
    .uint64 c.spinnerSpinBlockWindow, .uint64 c.spinnerCountPrecision, .uint64 c.mempoolTxLivetime,
    .uint64 c.mempoolTxFromAltBlockLivetime, .uint64 c.messageTxLivetime,
    .uint64 c.messageTxAmount, .flag c.dandelionppEnable, .uint64 c.txExtraSmsMaxCount, .object c.gyroDonationAddr]

def listedMainnet (c : CryptonoteConfig) : List Param :=
  [.text c.cryptonoteName, .uint32 c.cryptonoteDisplayDecimalPoint, .uint64 c.coin] ++
    c.listedCommon ++
    [.uint64 c.emissionSubsidyPerMinute, .uint64 c.finalSubsidyPerMinute] ++ c.mainnet.listed

def listedOther (c : CryptonoteConfig) (n : NetParams) : List Param :=
  [.text c.cryptonoteName, .uint32 c.cryptonoteDisplayDecimalPoint, .uint64 c.coin,
    .uint64 c.emissionSubsidyPerMinute, .uint64 c.finalSubsidyPerMinute] ++
    c.listedCommon ++ n.listed

def listedTestnet (c : CryptonoteConfig) : List Param := c.listedOther c.testnet
def listedStagenet (c : CryptonoteConfig) : List Param := c.listedOther c.stagenet

def getCryptonoteConfigHash (c : CryptonoteConfig) : Hash := hashParams mem c.listedMainnet
def getTestnetCryptonoteConfigHash (c : CryptonoteConfig) : Hash := hashParams mem c.listedTestnet
def getStagenetCryptonoteConfigHash (c : CryptonoteConfig) : Hash :=
  hashParams mem c.listedStagenet

def getConfig (c : CryptonoteConfig) : NetworkType → NetParams
  | .mainnet | .fakechain => c.mainnet
  | .testnet => c.testnet
  | .stagenet => c.stagenet

end CryptonoteConfig

/-- The start of `Blockchain::init`: the first block must carry the id of the configuration. Without
the field `chain_id` stays `unset`. A fake chain is not checked. -/
def initChecksChainId (net : NetworkType) (c : CryptonoteConfig) (unset : Hash) (db : Db)
    (generated : Block) : Bool :=
  let bl := (db.entries.head?.map (·.block)).getD generated
  let chainId := bl.spinnerTx.chainIdFromExtra.getD unset
  match net with
  | .mainnet => chainId = c.getCryptonoteConfigHash mem
  | .testnet => chainId = c.getTestnetCryptonoteConfigHash mem
  | .stagenet => chainId = c.getStagenetCryptonoteConfigHash mem
  | .fakechain => true

end

namespace CryptonoteConfig

def listed (c : CryptonoteConfig) : NetworkType → List Param
  | .mainnet | .fakechain => c.listedMainnet
  | .testnet => c.listedTestnet
  | .stagenet => c.listedStagenet

def chainId (mem : Blob → Blob) (c : CryptonoteConfig) (net : NetworkType) : Hash :=
  hashParams mem (c.listed net)

end CryptonoteConfig

def CollisionFree (xs : List Blob) : Prop :=
  ∀ x ∈ xs, ∀ y ∈ xs, cnFastHash x = cnFastHash y → x = y

theorem collisionFree_of_nodup {xs : List Blob} (h : (xs.dedup.map cnFastHash).Nodup) : CollisionFree xs := by
  intro x hx y hy heq
  exact List.inj_on_of_nodup_map h (List.mem_dedup.mpr hx) (List.mem_dedup.mpr hy) heq

section
variable {mem : Blob → Blob} {net : NetworkType}

theorem hashParams_concat (ps : List Param) (p : Param) : hashParams mem (ps ++ [p]) = cnFastHash (p.bytes mem) := by
  simp [hashParams, cnFastHashInto]

theorem NetParams.listed_eq (n : NetParams) : ∃ before : List Param, n.listed = before ++ [.uuid n.networkId] :=
  ⟨n.listed.dropLast, rfl⟩

theorem CryptonoteConfig.listed_eq (c : CryptonoteConfig) (net : NetworkType) :
    ∃ before : List Param, c.listed net = before ++ [.uuid (c.getConfig net).networkId] := by
  obtain ⟨before, hn⟩ := NetParams.listed_eq (c.getConfig net)
  cases net <;>
    simp only [CryptonoteConfig.listed, listedMainnet, listedTestnet, listedStagenet,
      listedOther, getConfig] at hn ⊢ <;>
    rw [hn, ← List.append_assoc] <;> exact ⟨_, rfl⟩

theorem chainId_eq (c : CryptonoteConfig) (net : NetworkType) :
    c.chainId mem net = cnFastHash (bytesOf 16 (c.getConfig net).networkId) := by
  obtain ⟨before, heq⟩ := c.listed_eq net
  rw [CryptonoteConfig.chainId, heq, hashParams_concat]
  rfl

theorem networkId_mem (c : CryptonoteConfig) (net : NetworkType) :
    bytesOf 16 (c.getConfig net).networkId ∈ (c.listed net).map (·.bytes mem) := by
  obtain ⟨before, heq⟩ := c.listed_eq net
  simp [heq, Param.bytes]

theorem chainId_eq_iff {c c' : CryptonoteConfig}
    (hf : CollisionFree ((c.listed net ++ c'.listed net).map (·.bytes mem))) :
    c.chainId mem net = c'.chainId mem net ↔ (c.getConfig net).networkId = (c'.getConfig net).networkId := by
  rw [chainId_eq, chainId_eq]
  constructor
  · intro hh
    rw [List.map_append] at hf
    have hb := hf _ (List.mem_append_left _ (networkId_mem c net))
      _ (List.mem_append_right _ (networkId_mem c' net)) hh
    exact @bytesOf_injective 16 _ _ hb
  · intro hi
    rw [hi]

theorem initChecksChainId_eq (hn : net ≠ .fakechain) (c : CryptonoteConfig) (unset : Hash)
    (db : Db) (generated : Block) : initChecksChainId mem net c unset db generated = true ↔
      ((db.entries.head?.map (·.block)).getD generated).spinnerTx.chainIdFromExtra.getD unset = c.chainId mem net := by
  cases net with
  | fakechain => exact absurd rfl hn
  | mainnet | testnet | stagenet => exact decide_eq_true_iff

/-- Differing in a listed parameter shows in the id, and makes a node refuse the other's genesis
block, exactly if the network id differs. -/
theorem chain_id_binds_iff (hnet : net ≠ .fakechain) (c c' : CryptonoteConfig)
    (hfree : CollisionFree ((c.listed net ++ c'.listed net).map (·.bytes mem))) :
    (c.listed net ≠ c'.listed net → c.chainId mem net ≠ c'.chainId mem net ∧
        ∀ (unset : Hash) (db : Db) (generated : Block),
          ((db.entries.head?.map (·.block)).getD generated).spinnerTx.chainIdFromExtra =
            some (c.chainId mem net) → initChecksChainId mem net c' unset db generated = false) ↔
      c.listed net = c'.listed net ∨
        (c.getConfig net).networkId ≠ (c'.getConfig net).networkId := by
  by_cases hl : c.listed net = c'.listed net
  · simp [hl]
  · simp only [hl, ne_eq, not_false_eq_true, true_imp_iff, false_or]
    rw [chainId_eq_iff hfree]
    constructor
    · exact And.left
    · intro hi
      refine ⟨hi, fun unset db generated hg => ?_⟩
      rw [← Bool.not_eq_true, initChecksChainId_eq hnet, hg, Option.getD_some, chainId_eq_iff hfree]
      exact hi

end

def CryptonoteConfig.default : CryptonoteConfig where
  toConfig := Config.default
  cryptonoteName := [103, 121, 114, 111]
  cryptonoteDisplayDecimalPoint := 12
  durationTargetLag := 5
  spinnerIntervalDynamicFactor := 5
  mempoolTxLivetime := 86400 * 3
  mempoolTxFromAltBlockLivetime := 604800
  messageTxLivetime := 86400
  messageTxAmount := 1000000000000
  dandelionppEnable := true
  txExtraSmsMaxCount := 4096
  gyroDonationAddr := []
  mainnet :=
    { publicAddressBase58Prefix := 17, publicSubaddressBase58Prefix := 41
      publicIntegratedAddressBase58Prefix := 18, genesisNonce := 10000
      networkId := 0x495c0d6c609c609f0c423516a7ea4117 }
  testnet :=
    { publicAddressBase58Prefix := 52, publicSubaddressBase58Prefix := 62
      publicIntegratedAddressBase58Prefix := 53, genesisNonce := 10001
      networkId := 0xb99c68cc803382a5fa49f8370ae08fc1 }
  stagenet :=
    { publicAddressBase58Prefix := 24, publicSubaddressBase58Prefix := 36
      publicIntegratedAddressBase58Prefix := 25, genesisNonce := 10002
      networkId := 0xda9ab19e0113898f6240353c31504080 }

-- the id in the extra of the shipped mainnet `GENESIS_TX`
example : hashBytes (CryptonoteConfig.default.chainId id .mainnet) =
    [0xd1, 0xe3, 0x84, 0x16, 0x6b, 0x71, 0x87, 0x5a, 0xa9, 0x8a, 0xde, 0x9d, 0x38, 0x80, 0xba, 0x2c,
     0x50, 0xee, 0x08, 0xbc, 0x97, 0xc0, 0x91, 0x14, 0x71, 0xd8, 0xfd, 0x7d, 0x6a, 0x9b, 0x2a, 0x5e] := by
  decide +kernel

namespace Sample

def otherNetwork : CryptonoteConfig :=
  { CryptonoteConfig.default with
    mainnet := { CryptonoteConfig.default.mainnet with networkId := 1 } }

def otherAmounts : CryptonoteConfig :=
  { CryptonoteConfig.default with startAmount := 1, spinnerAmountMinLock := 1 }

def genesis : Block where
  hash := 0
  majorVersion := 1
  minorVersion := 1
  timestamp := 0
  prevId := nullHash
  spinnerTx :=
    { hash := 1, version := 1, unlockTime := 60, vin := [.gen 0], vout := []
      extra := [.chainId (CryptonoteConfig.default.chainId id .mainnet)], rctSignatures := .null
      weight := 100, fee := 0, pruned := false }
  txHashes := []

theorem genesis_chainId : genesis.spinnerTx.chainIdFromExtra =
    some (CryptonoteConfig.default.chainId id .mainnet) := rfl

end Sample

open Sample

theorem chain_id_binds_network : CryptonoteConfig.default.chainId id .mainnet ≠ otherNetwork.chainId id .mainnet ∧
      initChecksChainId id .mainnet otherNetwork 0 Db.empty genesis = false := by
  have hf : CollisionFree ((CryptonoteConfig.default.listed .mainnet ++
      otherNetwork.listed .mainnet).map (·.bytes id)) := by
    apply collisionFree_of_nodup
    decide +kernel
  have hb := (chain_id_binds_iff (by decide) CryptonoteConfig.default otherNetwork hf).mpr
    (Or.inr (by decide)) (by decide)
  exact ⟨hb.1, hb.2 0 Db.empty genesis genesis_chainId⟩

theorem chain_id_ignores_amounts : CryptonoteConfig.default.listed .mainnet ≠ otherAmounts.listed .mainnet ∧
      CryptonoteConfig.default.chainId id .mainnet = otherAmounts.chainId id .mainnet ∧
      initChecksChainId id .mainnet otherAmounts 0 Db.empty genesis = true := by
  have hs : CryptonoteConfig.default.chainId id .mainnet = otherAmounts.chainId id .mainnet := by
    rw [chainId_eq, chainId_eq]
    rfl
  refine ⟨by decide, hs, ?_⟩
  rw [initChecksChainId_eq (by decide)]
  simpa [Db.empty, genesis_chainId] using hs

end Gyro
