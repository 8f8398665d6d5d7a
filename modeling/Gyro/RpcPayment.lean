import Gyro.Config
import Gyro.Lib.Runs

/-!
# Payment for RPC access

`rpc_payment.cpp`: a client fetches a template with `get_info`, earns credits with
`submit_nonce` and spends them with `pay`. The check of the hash is commented out.
-/

namespace Gyro

def staleThreshold : UInt64 := 15
def penaltyForStale : UInt64 := 0
def penaltyForDuplicate : UInt64 := 20
def defaultFlushAge : UInt64 := 3600 * 24 * 180
def defaultZeroFlushAge : UInt64 := 60 * 2
def rxBlockVersion : UInt8 := 12

def add64clamp (value add : UInt64) : UInt64 := if value > 0 - 1 - add then 0 - 1 else value + add

def sub64clamp (value sub : UInt64) : UInt64 := if value < sub then 0 else value - sub

structure PaymentEnv (β : Type) where
  diff : UInt64
  creditsPerHashFound : UInt64
  /-- Puts the four bytes that stand for the client into the extra; `none` when that fails. -/
  bindClient : PublicKey → β → Option β
  getBlockHashingBlob : β → Blob
  majorVersion : β → UInt8
  getBlockHeight : β → UInt64
  withNonce : β → UInt32 → β
  rxSlowHash : UInt64 → UInt64 → Hash → Blob → Hash
  cnSlowHash : Blob → Nat → UInt64 → Hash
  checkHash : Hash → UInt64 → Bool

namespace RpcPayment

structure Template (β : Type) where
  block : Option β
  hashingBlob : Blob
  seedHeight : UInt64
  seedHash : Hash
  payments : List UInt32

def Template.empty {β : Type} : Template β := ⟨none, [], 0, nullHash, []⟩

structure ClientInfo (β : Type) where
  current : Template β
  previous : Template β
  cookie : UInt32
  top : Hash
  credits : UInt64
  updateTime : UInt64
  lastRequestTimestamp : UInt64
  blockTemplateUpdateTime : UInt64
  creditsTotal : UInt64
  creditsUsed : UInt64

def ClientInfo.new {β : Type} (now : UInt64) : ClientInfo β :=
  ⟨.empty, .empty, 0, nullHash, 0, now, 0, 0, 0, 0⟩

abbrev Clients (β : Type) := PublicKey → Option (ClientInfo β)

structure RpcError where
  code : Int
  message : String
  deriving DecidableEq

structure Submitted (β : Type) where
  credits : UInt64
  hash : Hash
  block : Option β
  stale : Bool

section
variable {β : Type} (env : PaymentEnv β) (s : Clients β) (now : UInt64) (client : PublicKey)

def infoOf : ClientInfo β := (s client).getD (.new now)

def put (info : ClientInfo β) : Clients β := fun c => if c = client then some info else s c

/-- `pay`: the new state, whether the payment was made, and the credits if they are told. -/
def pay (ts payment : UInt64) (sameTs : Bool) : Clients β × Bool × Option UInt64 :=
  let info := infoOf s now client
  if ts < info.lastRequestTimestamp ∨ (ts = info.lastRequestTimestamp ∧ !sameTs) then
    (put s client info, false, none)
  else
    let info := { info with lastRequestTimestamp := ts }
    if info.credits < payment then (put s client info, false, some info.credits)
    else
      let info := { info with
        credits := info.credits - payment
        creditsUsed := add64clamp info.creditsUsed payment }
      (put s client info, true, some info.credits)

structure NewBlock (β : Type) where
  block : β
  seedHeight : UInt64
  seedHash : Hash

def needTemplate (info : ClientInfo β) (top : Hash) : Bool :=
  top ≠ info.top ∨ now ≥ info.blockTemplateUpdateTime + staleThreshold

def rotate (info : ClientInfo β) (b : NewBlock β) (block : β) : ClientInfo β :=
  { info with
    previous := info.current
    current := ⟨some block, env.getBlockHashingBlob block, b.seedHeight, b.seedHash, []⟩
    cookie := info.cookie + 1
    blockTemplateUpdateTime := now }

/-- The new template, if one is needed and can be made; `none` when `get_info` fails. -/
def refresh (info : ClientInfo β) (top : Hash) (new : Option (NewBlock β)) : Option (ClientInfo β) :=
  if needTemplate now info top then
    new.bind fun b => (env.bindClient client b.block).map fun block => rotate env now info b block
  else some info

/-- `get_info`, where `new` is what `get_block_template` returns when it is called. -/
def getInfo (top : Hash) (new : Option (NewBlock β)) : Clients β × Option (ClientInfo β) :=
  let info := infoOf s now client
  match refresh env now client info top new with
  | none => (put s client info, none)
  | some info =>
    let info := { info with top, updateTime := now }
    (put s client info, some info)

/-- Whether the cookie is that of the current template, of the previous one, or of neither. -/
def whichTemplate (info : ClientInfo β) (cookie : UInt32) : Option Bool :=
  if cookie = info.cookie then some true
  else if cookie = info.cookie - 1 then some false
  else none

def ClientInfo.template (info : ClientInfo β) (isCurrent : Bool) : Template β :=
  if isCurrent then info.current else info.previous

def ClientInfo.remember (info : ClientInfo β) (isCurrent : Bool) (nonce : UInt32) : ClientInfo β :=
  if isCurrent then { info with current := { info.current with payments := nonce :: info.current.payments } }
  else { info with previous := { info.previous with payments := nonce :: info.previous.payments } }

def patchNonce (blob : Blob) (nonce : UInt32) : Blob :=
  blob.take 39 ++ [nonce.toUInt8, (nonce >>> 8).toUInt8, (nonce >>> 16).toUInt8, (nonce >>> 24).toUInt8] ++
    blob.drop 43

def powHash (t : Template β) (nonce : UInt32) : Hash :=
  let blob := patchNonce t.hashingBlob nonce
  let height := (t.block.map env.getBlockHeight).getD 0
  if (t.block.map env.majorVersion).getD 0 ≥ rxBlockVersion then
    env.rxSlowHash height t.seedHeight t.seedHash blob
  else
    -- The first byte is compared as a signed character.
    let first := (blob.headD 0).toInt8
    env.cnSlowHash blob (if 7 ≤ first then (first - 6).toInt.toNat else 0) height

def submitNonce (nonce cookie : UInt32) : Clients β × Except RpcError (Submitted β) :=
  let info := infoOf s now client
  match whichTemplate info cookie with
  | none =>
    (put s client { info with credits := sub64clamp info.credits (penaltyForStale * env.creditsPerHashFound) },
      .error ⟨-18, "Very stale payment"⟩)
  | some isCurrent =>
    let t := info.template isCurrent
    if nonce ∈ t.payments then
      (put s client { info with credits := sub64clamp info.credits (penaltyForDuplicate * env.creditsPerHashFound) },
        .error ⟨-17, "Duplicate payment"⟩)
    else
      let info := info.remember isCurrent nonce
      if !isCurrent ∧ now > info.updateTime + staleThreshold then
        (put s client { info with credits := sub64clamp info.credits (penaltyForStale * env.creditsPerHashFound) },
          .error ⟨-18, "stale payment"⟩)
      else if t.hashingBlob.length < 43 then (put s client info, .error ⟨-6, "not initialized"⟩)
      else
        let info := { info with
          credits := add64clamp info.credits env.creditsPerHashFound
          creditsTotal := add64clamp info.creditsTotal env.creditsPerHashFound }
        (put s client info, .ok
          { credits := info.credits
            hash := powHash env t nonce
            block := info.current.block.map (env.withNonce · nonce)
            stale := !isCurrent })

/-- The block `on_rpc_access_submit_nonce` hands to `handle_block_found`. -/
def blockFound (r : Except RpcError (Submitted β)) : Option β :=
  match r with
  | .error _ => none
  | .ok r => if r.stale then none else r.block

def flushByAge (seconds : UInt64) : Clients β :=
  let seconds0 := if seconds = 0 then defaultZeroFlushAge else seconds
  let seconds := if seconds = 0 then defaultFlushAge else seconds
  let threshold := if seconds > now then 0 else now - seconds
  let threshold0 := if seconds0 > now then 0 else now - seconds0
  fun c => (s c).filter fun info =>
    let requested := info.lastRequestTimestamp / 1000000
    let t := if requested < info.updateTime then info.updateTime else requested
    ¬t < if info.credits = 0 then threshold0 else threshold

end

end RpcPayment

end Gyro
