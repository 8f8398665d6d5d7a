import Gyro.RpcPayment
import Mathlib.Data.UInt

/-!
# Credits for RPC access

A nonce earns credits at most once for a template, known by its client and its number
among that client's templates.
-/

namespace Gyro.RpcPayment

open Runs List

structure Ledger (β : Type) where
  clients : Clients β
  issued : PublicKey → Nat
  credited : List (PublicKey × Nat × UInt32)
  saturated : PublicKey → Bool

inductive Op (β : Type) where
  | getInfo (client : PublicKey) (top : Hash) (new : Option (NewBlock β)) (now : UInt64)
  | submitNonce (client : PublicKey) (nonce cookie : UInt32) (now : UInt64)
  | pay (client : PublicKey) (ts payment : UInt64) (sameTs : Bool) (now : UInt64)
  | flush (seconds : UInt64) (now : UInt64)

variable {β : Type} {env : PaymentEnv β} {now : UInt64} {client : PublicKey} {nonce cookie : UInt32}
  {info : ClientInfo β}

section
variable (env : PaymentEnv β)

def Ledger.empty : Ledger β := ⟨fun _ => none, fun _ => 0, [], fun _ => false⟩

def Ledger.number (s : Ledger β) (client : PublicKey) (isCurrent : Bool) : Nat :=
  if isCurrent then s.issued client else s.issued client - 1

def update {α : Type} (f : PublicKey → α) (client : PublicKey) (a : α) : PublicKey → α :=
  fun c => if c = client then a else f c

def Ledger.step (s : Ledger β) : Op β → Option (Ledger β)
  | .getInfo client top new now =>
    let info := infoOf s.clients now client
    let made := needTemplate now info top && (refresh env now client info top new).isSome
    some { s with
      clients := (getInfo env s.clients now client top new).1
      issued := update s.issued client (s.issued client + if made then 1 else 0) }
  | .submitNonce client nonce cookie now =>
    let total := (infoOf s.clients now client).creditsTotal.toNat
    let r := submitNonce env s.clients now client nonce cookie
    some { s with
      clients := r.1
      credited := match r.2 with
        | .ok x => (client, s.number client (!x.stale), nonce) :: s.credited
        | .error _ => s.credited
      saturated := update s.saturated client
        (s.saturated client || r.2.isOk && 2 ^ 64 ≤ total + env.creditsPerHashFound.toNat) }
  | .pay client ts payment sameTs now => some { s with clients := (pay s.clients now client ts payment sameTs).1 }
  | .flush seconds now => some { s with clients := flushByAge s.clients now seconds }

def creditsOf (s : Clients β) (client : PublicKey) : Nat := ((s client).map (·.credits.toNat)).getD 0

structure Admitted (s : Clients β) (now : UInt64) (client : PublicKey) (nonce cookie : UInt32) (isCurrent : Bool) :
    Prop where
  which : whichTemplate (infoOf s now client) cookie = some isCurrent
  new : nonce ∉ ((infoOf s now client).template isCurrent).payments
  fresh : isCurrent = true ∨ ¬now > (infoOf s now client).updateTime + staleThreshold
  long : ¬((infoOf s now client).template isCurrent).hashingBlob.length < 43

def MeetsDiff (s : Ledger β) : Op β → Prop
  | .submitNonce client nonce cookie now => ∀ isCurrent, Admitted s.clients now client nonce cookie isCurrent →
      env.checkHash (powHash env ((infoOf s.clients now client).template isCurrent) nonce) env.diff = true
  | _ => True

def MadeFor (client : PublicKey) (t : Template β) : Prop :=
  t.hashingBlob = [] ∨ ∃ b₀ b, env.bindClient client b₀ = some b ∧ t.block = some b ∧
    t.hashingBlob = env.getBlockHashingBlob b

/-- New credits were earned by a nonce of the client that meets the difficulty over one of its two
templates and was not credited for it before. -/
structure Earned (s t : Ledger β) (client : PublicKey) (nonce cookie : UInt32) (now : UInt64) (isCurrent : Bool) :
    Prop where
  admitted : Admitted s.clients now client nonce cookie isCurrent
  made : MadeFor env client ((infoOf s.clients now client).template isCurrent)
  meets : env.checkHash (powHash env ((infoOf s.clients now client).template isCurrent) nonce) env.diff = true
  amount : creditsOf t.clients client ≤ creditsOf s.clients client + env.creditsPerHashFound.toNat
  first : (client, s.number client isCurrent, nonce) ∉ s.credited
  noted : (client, s.number client isCurrent, nonce) ∈ t.credited

/-- Credits grow only as earned, and a submitted block is the template its nonce was hashed with. -/
structure Fair (s : Ledger β) (op : Op β) (t : Ledger β) : Prop where
  earned : ∀ client, creditsOf s.clients client < creditsOf t.clients client →
    ∃ nonce cookie now isCurrent, op = .submitNonce client nonce cookie now ∧
      Earned env s t client nonce cookie now isCurrent
  found : ∀ client nonce cookie now b, op = .submitNonce client nonce cookie now →
    blockFound (submitNonce env s.clients now client nonce cookie).2 = some b →
    ∃ r template, (submitNonce env s.clients now client nonce cookie).2 = .ok r ∧
      (infoOf s.clients now client).current.block = some template ∧
      (infoOf s.clients now client).current.hashingBlob = env.getBlockHashingBlob template ∧
      r.hash = powHash env (infoOf s.clients now client).current nonce ∧ b = env.withNonce template nonce

/-- No nonce was credited twice for a template, and no client has or used more than it got, unless
clamped. -/
structure Accounted (s : Ledger β) : Prop where
  once : s.credited.Nodup
  total : ∀ client info, s.clients client = some info → s.saturated client = false →
    info.credits.toNat + info.creditsUsed.toNat ≤ info.creditsTotal.toNat

end

section
variable {s : Clients β}

theorem toNat_sub64clamp_le (value sub : UInt64) : (sub64clamp value sub).toNat ≤ value.toNat := by
  unfold sub64clamp
  split
  · exact Nat.zero_le _
  · next hle =>
    have hle' : sub ≤ value := UInt64.not_lt.mp hle
    rw [UInt64.toNat_sub_of_le _ _ hle']
    exact Nat.sub_le _ _

theorem toNat_add64clamp (value add : UInt64) :
    (add64clamp value add).toNat = min (value.toNat + add.toNat) (2 ^ 64 - 1) := by
  have hx : (0 - 1 - add : UInt64).toNat = 2 ^ 64 - 1 - add.toNat := by
    have hle : add ≤ 0 - 1 := UInt64.le_iff_toNat_le.mpr (Nat.le_pred_of_lt add.toNat_lt)
    rw [UInt64.toNat_sub_of_le _ _ hle]
    rfl
  have hl := add.toNat_lt
  unfold add64clamp
  split
  · next hg =>
    have hg' := UInt64.lt_iff_toNat_lt.mp hg
    have ho : (0 - 1 : UInt64).toNat = 2 ^ 64 - 1 := rfl
    omega
  · next hle =>
    have hle' := mt UInt64.lt_iff_toNat_lt.mpr hle
    rw [UInt64.toNat_add]
    omega


@[simp] theorem put_self : put s client info client = some info := if_pos rfl

theorem put_of_ne {c : PublicKey} (h : c ≠ client) : put s client info c = s c := if_neg h

theorem creditsOf_eq_infoOf (s : Clients β) (now : UInt64) (client : PublicKey) :
    creditsOf s client = (infoOf s now client).credits.toNat := by
  unfold creditsOf infoOf
  cases s client <;> rfl

theorem creditsOf_put (c : PublicKey) :
    creditsOf (put s client info) c = if c = client then info.credits.toNat else creditsOf s c := by
  unfold creditsOf put
  split <;> rfl

structure Template.SameBlock (t t' : Template β) : Prop where
  block : t'.block = t.block
  hashingBlob : t'.hashingBlob = t.hashingBlob
  payments : t.payments ⊆ t'.payments

theorem Template.SameBlock.refl (t : Template β) : t.SameBlock t := ⟨rfl, rfl, List.Subset.refl _⟩

structure Lowered (info info' : ClientInfo β) : Prop where
  current : info.current.SameBlock info'.current
  previous : info.previous.SameBlock info'.previous
  credits : info'.credits.toNat + info'.creditsUsed.toNat ≤ info.credits.toNat + info.creditsUsed.toNat
  credits_le : info'.credits.toNat ≤ info.credits.toNat
  total : info'.creditsTotal = info.creditsTotal

theorem lowered_remember (info : ClientInfo β) (isCurrent : Bool) (nonce : UInt32) :
    Lowered info (info.remember isCurrent nonce) := by
  cases isCurrent with
  | false => exact ⟨.refl _, ⟨rfl, rfl, subset_cons_self _ _⟩, Nat.le_refl _, Nat.le_refl _, rfl⟩
  | true => exact ⟨⟨rfl, rfl, subset_cons_self _ _⟩, .refl _, Nat.le_refl _, Nat.le_refl _, rfl⟩

theorem Lowered.penalize {info info' : ClientInfo β} (h : Lowered info info') (sub : UInt64) :
    Lowered info { info' with credits := sub64clamp info'.credits sub } := by
  have hle := toNat_sub64clamp_le info'.credits sub
  exact ⟨h.current, h.previous, Nat.le_trans (Nat.add_le_add_right hle _) h.credits,
    Nat.le_trans hle h.credits_le, h.total⟩

theorem Lowered.refl (info : ClientInfo β) : Lowered info info :=
  ⟨.refl _, .refl _, Nat.le_refl _, Nat.le_refl _, rfl⟩

def credit (env : PaymentEnv β) (info : ClientInfo β) : ClientInfo β :=
  { info with
    credits := add64clamp info.credits env.creditsPerHashFound
    creditsTotal := add64clamp info.creditsTotal env.creditsPerHashFound }

theorem credits_credit (info : ClientInfo β) :
    (credit env info).credits = add64clamp info.credits env.creditsPerHashFound := rfl

theorem creditsTotal_credit (info : ClientInfo β) :
    (credit env info).creditsTotal = add64clamp info.creditsTotal env.creditsPerHashFound := rfl

-- The client is taken apart: else `credit env info` and `info` would be compared, and the clamp evaluated.
theorem creditsUsed_credit (info : ClientInfo β) : (credit env info).creditsUsed = info.creditsUsed := by
  cases info
  rfl

theorem current_credit (info : ClientInfo β) : (credit env info).current = info.current := by
  cases info
  rfl

theorem previous_credit (info : ClientInfo β) : (credit env info).previous = info.previous := by
  cases info
  rfl

theorem total_credit (h : info.credits.toNat + info.creditsUsed.toNat ≤ info.creditsTotal.toNat)
    (hr : info.creditsTotal.toNat + env.creditsPerHashFound.toNat < 2 ^ 64) :
    (credit env info).credits.toNat + (credit env info).creditsUsed.toNat ≤ (credit env info).creditsTotal.toNat := by
  rw [credits_credit, creditsTotal_credit, creditsUsed_credit, toNat_add64clamp, toNat_add64clamp]
  omega

theorem submitNonce_cases (env : PaymentEnv β) (s : Clients β) (now : UInt64) (client : PublicKey)
    (nonce cookie : UInt32) : (∃ e info', submitNonce env s now client nonce cookie = (put s client info', .error e) ∧
      Lowered (infoOf s now client) info') ∨ ∃ isCurrent, Admitted s now client nonce cookie isCurrent ∧
      submitNonce env s now client nonce cookie =
        (put s client (credit env ((infoOf s now client).remember isCurrent nonce)), .ok
          { credits := (credit env ((infoOf s now client).remember isCurrent nonce)).credits
            hash := powHash env ((infoOf s now client).template isCurrent) nonce
            block := ((infoOf s now client).remember isCurrent nonce).current.block.map (env.withNonce · nonce)
            stale := !isCurrent }) := by
  have hk := lowered_remember (infoOf s now client)
  unfold submitNonce
  dsimp only
  split
  · exact Or.inl ⟨_, _, rfl, (Lowered.refl _).penalize _⟩
  · next isCurrent hh =>
    split
    · exact Or.inl ⟨_, _, rfl, (Lowered.refl _).penalize _⟩
    · next hn =>
      split
      · exact Or.inl ⟨_, _, rfl, (hk isCurrent nonce).penalize _⟩
      · next hf =>
        split
        · exact Or.inl ⟨_, _, rfl, hk isCurrent nonce⟩
        · next hl =>
          refine Or.inr ⟨isCurrent, ⟨hh, hn, ?_, hl⟩, rfl⟩
          cases isCurrent with
          | true => exact Or.inl rfl
          | false => exact Or.inr fun ha => hf ⟨rfl, ha⟩

theorem pay_cases (s : Clients β) (now : UInt64) (client : PublicKey) (ts payment : UInt64) (sameTs : Bool) :
    ∃ info', (pay s now client ts payment sameTs).1 = put s client info' ∧ Lowered (infoOf s now client) info' := by
  unfold pay
  dsimp only
  split
  · exact ⟨_, rfl, .refl _⟩
  · split
    · exact ⟨_, rfl, ⟨.refl _, .refl _, Nat.le_refl _, Nat.le_refl _, rfl⟩⟩
    · next hn =>
      refine ⟨_, rfl, ⟨.refl _, .refl _, ?_, ?_, rfl⟩⟩
      · have hle := UInt64.le_iff_toNat_le.mp (UInt64.not_lt.mp hn)
        rw [UInt64.toNat_sub_of_le _ _ (UInt64.not_lt.mp hn), toNat_add64clamp]
        omega
      · rw [UInt64.toNat_sub_of_le _ _ (UInt64.not_lt.mp hn)]
        exact Nat.sub_le _ _

structure Rotated (env : PaymentEnv β) (client : PublicKey) (info info' : ClientInfo β) : Prop where
  previous : info'.previous = info.current
  made : ∃ b₀ b, env.bindClient client b₀ = some b ∧ info'.current.block = some b ∧
    info'.current.hashingBlob = env.getBlockHashingBlob b
  credits : info'.credits = info.credits
  used : info'.creditsUsed = info.creditsUsed
  total : info'.creditsTotal = info.creditsTotal

theorem getInfo_cases (env : PaymentEnv β) (s : Clients β) (now : UInt64) (client : PublicKey) (top : Hash)
    (new : Option (NewBlock β)) :
    (∃ info', (getInfo env s now client top new).1 = put s client info' ∧ Lowered (infoOf s now client) info' ∧
      (needTemplate now (infoOf s now client) top &&
        (refresh env now client (infoOf s now client) top new).isSome) = false) ∨
    ∃ info', (getInfo env s now client top new).1 = put s client info' ∧
      Rotated env client (infoOf s now client) info' ∧ (needTemplate now (infoOf s now client) top &&
        (refresh env now client (infoOf s now client) top new).isSome) = true := by
  unfold getInfo
  dsimp only
  by_cases hn : needTemplate now (infoOf s now client) top = true
  · cases hr : refresh env now client (infoOf s now client) top new with
    | none => exact Or.inl ⟨_, rfl, .refl _, by simp⟩
    | some info' =>
      refine Or.inr ⟨_, rfl, ?_, by simp [hn]⟩
      rw [refresh, if_pos hn] at hr
      obtain ⟨b, -, hb⟩ := Option.bind_eq_some_iff.mp hr
      obtain ⟨block, hl, rfl⟩ := Option.map_eq_some_iff.mp hb
      exact ⟨rfl, ⟨b.block, block, hl, rfl, rfl⟩, rfl, rfl, rfl⟩
  · have hr : refresh env now client (infoOf s now client) top new = some (infoOf s now client) := if_neg hn
    rw [hr]
    exact Or.inl ⟨_, rfl, ⟨.refl _, .refl _, Nat.le_refl _, Nat.le_refl _, rfl⟩, by simp [hn]⟩

end

section
variable {s t : Ledger β} {c : PublicKey} {info' : ClientInfo β} {isCurrent : Bool}

/-- A client's templates were made for it, its credited nonces are among those submitted, and the
credits add up. -/
structure Standing (env : PaymentEnv β) (issued : Nat) (credited : List (PublicKey × Nat × UInt32)) (saturated : Bool)
    (client : PublicKey) (info : ClientInfo β) : Prop where
  made : MadeFor env client info.current ∧ MadeFor env client info.previous
  issued_pos : info.previous.hashingBlob ≠ [] → 0 < issued
  current : info.current.hashingBlob ≠ [] → ∀ nonce, (client, issued, nonce) ∈ credited → nonce ∈ info.current.payments
  previous : info.previous.hashingBlob ≠ [] → ∀ nonce, (client, issued - 1, nonce) ∈ credited →
    nonce ∈ info.previous.payments
  total : saturated = false → info.credits.toNat + info.creditsUsed.toNat ≤ info.creditsTotal.toNat

def Ledger.Stands (env : PaymentEnv β) (s : Ledger β) (client : PublicKey) (info : ClientInfo β) : Prop :=
  Standing env (s.issued client) s.credited (s.saturated client) client info

structure Sound (env : PaymentEnv β) (s : Ledger β) : Prop where
  stands : ∀ client info, s.clients client = some info → s.Stands env client info
  bounded : ∀ client k nonce, (client, k, nonce) ∈ s.credited → k ≤ s.issued client
  once : s.credited.Nodup

theorem Sound.accounted (h : Sound env s) : Accounted s :=
  ⟨h.once, fun client info hi hs => (h.stands client info hi).total hs⟩

theorem Sound.infoOf (h : Sound env s) (now : UInt64) (client : PublicKey) :
    s.Stands env client (infoOf s.clients now client) := by
  cases hi : s.clients client with
  | some info =>
    have : RpcPayment.infoOf s.clients now client = info := by simp [RpcPayment.infoOf, hi]
    rw [this]
    exact h.stands client info hi
  | none =>
    have : RpcPayment.infoOf s.clients now client = .new now := by simp [RpcPayment.infoOf, hi]
    rw [this]
    refine ⟨⟨Or.inl rfl, Or.inl rfl⟩, fun h => absurd rfl h, fun h => absurd rfl h, fun h => absurd rfl h,
      fun _ => Nat.le_refl _⟩

theorem Template.SameBlock.madeFor {tm tm' : Template β} (h : tm.SameBlock tm') (hm : MadeFor env client tm) :
    MadeFor env client tm' := by
  unfold MadeFor
  rw [h.block, h.hashingBlob]
  exact hm

theorem Standing.lowered {issued : Nat} {credited : List (PublicKey × Nat × UInt32)} {saturated : Bool}
    (h : Standing env issued credited saturated client info) (hl : Lowered info info') :
    Standing env issued credited saturated client info' where
  made := ⟨hl.current.madeFor h.made.1, hl.previous.madeFor h.made.2⟩
  issued_pos hn := h.issued_pos (hl.previous.hashingBlob ▸ hn)
  current hn nonce hme := hl.current.payments (h.current (hl.current.hashingBlob ▸ hn) nonce hme)
  previous hn nonce hme := hl.previous.payments (h.previous (hl.previous.hashingBlob ▸ hn) nonce hme)
  total hs := by
    rw [hl.total]
    exact Nat.le_trans hl.credits (h.total hs)

theorem Sound.put (h : Sound env s) (hl : t.clients = RpcPayment.put s.clients client info')
    (ho : ∀ c, c ≠ client → t.issued c = s.issued c ∧ t.saturated c = s.saturated c ∧
      ∀ k nonce, (c, k, nonce) ∈ t.credited → (c, k, nonce) ∈ s.credited)
    (ht : t.Stands env client info') (hb : ∀ k nonce, (client, k, nonce) ∈ t.credited → k ≤ t.issued client)
    (hon : t.credited.Nodup) : Sound env t := by
  refine ⟨fun c info hi => ?_, fun c k nonce hme => ?_, hon⟩
  · by_cases hc : c = client
    · subst hc
      rw [hl, put_self] at hi
      cases hi
      exact ht
    · rw [hl, put_of_ne hc] at hi
      obtain ⟨hs, hst, hr⟩ := ho c hc
      have hold := h.stands c info hi
      unfold Ledger.Stands at hold ⊢
      rw [hs, hst]
      exact { hold with
        current := fun hn nonce hme => hold.current hn nonce (hr _ _ hme)
        previous := fun hn nonce hme => hold.previous hn nonce (hr _ _ hme) }
  · by_cases hc : c = client
    · subst hc
      exact hb k nonce hme
    · obtain ⟨hs, -, hr⟩ := ho c hc
      rw [hs]
      exact h.bounded c k nonce (hr _ _ hme)

theorem sound_empty : Sound env (.empty : Ledger β) :=
  ⟨fun _ _ h => (nomatch h), fun _ _ _ h => (nomatch h), nodup_nil⟩

theorem update_self {α : Type} {f : PublicKey → α} {a : α} : update f client a client = a := if_pos rfl

theorem update_of_ne {α : Type} {f : PublicKey → α} {a : α} (h : c ≠ client) : update f client a c = f c := if_neg h

theorem Sound.lower (h : Sound env s) (hcl : t.clients = RpcPayment.put s.clients client info')
    (hl : Lowered (RpcPayment.infoOf s.clients now client) info') (hi : t.issued = s.issued)
    (hc : t.credited = s.credited) (hs : t.saturated = s.saturated) : Sound env t := by
  refine h.put hcl (fun c _ => ⟨by rw [hi], by rw [hs], fun k nonce hme => hc ▸ hme⟩) ?_
    (fun k nonce hme => ?_) (hc ▸ h.once)
  · unfold Ledger.Stands
    rw [hi, hc, hs]
    exact (h.infoOf now client).lowered hl
  · rw [hi]
    exact h.bounded client k nonce (hc ▸ hme)

theorem Sound.rotate (h : Sound env s) (hl : t.clients = RpcPayment.put s.clients client info')
    (hr : Rotated env client (RpcPayment.infoOf s.clients now client) info')
    (hi : t.issued = update s.issued client (s.issued client + 1))
    (hcr : t.credited = s.credited) (hs : t.saturated = s.saturated) : Sound env t := by
  have hold := h.infoOf now client
  have hse : t.issued client = s.issued client + 1 := by rw [hi, update_self]
  refine h.put hl (fun c hc => ⟨by rw [hi, update_of_ne hc], by rw [hs],
    fun k nonce hme => hcr ▸ hme⟩) ?_ (fun k nonce hme => ?_) (hcr ▸ h.once)
  · unfold Ledger.Stands
    rw [hse, hcr, hs]
    refine ⟨⟨Or.inr hr.made, hr.previous ▸ hold.made.1⟩, fun _ => Nat.succ_pos _, fun _ nonce hme => ?_,
      fun hn nonce hme => ?_, fun ha => ?_⟩
    · have := h.bounded client _ nonce hme
      omega
    · rw [hr.previous] at hn ⊢
      exact hold.current hn nonce hme
    · rw [hr.credits, hr.used, hr.total]
      exact hold.total ha
  · rw [hse]
    exact Nat.le_succ_of_le (h.bounded client k nonce (hcr ▸ hme))

theorem ne_nil_of_admitted (ha : Admitted s.clients now client nonce cookie isCurrent) :
    ((RpcPayment.infoOf s.clients now client).template isCurrent).hashingBlob ≠ [] := by
  intro hn
  exact ha.long (by rw [hn]; decide)

theorem Sound.not_credited (h : Sound env s) (ha : Admitted s.clients now client nonce cookie isCurrent) :
    (client, s.number client isCurrent, nonce) ∉ s.credited := by
  intro hme
  have hold := h.infoOf now client
  have hn := ne_nil_of_admitted ha
  have hnw := ha.new
  cases isCurrent with
  | true => exact hnw (hold.current hn nonce hme)
  | false => exact hnw (hold.previous hn nonce hme)

theorem Sound.number_ne (h : Sound env s) (hn : (RpcPayment.infoOf s.clients now client).previous.hashingBlob ≠ []) :
    s.issued client ≠ s.issued client - 1 := by
  have := (h.infoOf now client).issued_pos hn
  omega

theorem Sound.credit (h : Sound env s) (ha : Admitted s.clients now client nonce cookie isCurrent)
    (hcl : t.clients = RpcPayment.put s.clients client
      (RpcPayment.credit env ((RpcPayment.infoOf s.clients now client).remember isCurrent nonce)))
    (hi : t.issued = s.issued) (hr : t.credited = (client, s.number client isCurrent, nonce) :: s.credited)
    (hs : t.saturated = update s.saturated client (s.saturated client ||
      2 ^ 64 ≤ (RpcPayment.infoOf s.clients now client).creditsTotal.toNat + env.creditsPerHashFound.toNat)) :
    Sound env t := by
  have hold := h.infoOf now client
  have hl := lowered_remember (RpcPayment.infoOf s.clients now client) isCurrent nonce
  have hk := hold.lowered hl
  refine h.put hcl (fun c hc => ⟨by rw [hi], by rw [hs, update_of_ne hc], fun k n hme => ?_⟩) ?_
    (fun k n hme => ?_) ?_
  · rw [hr] at hme
    rcases mem_cons.mp hme with heq | hme
    · exact absurd (Prod.mk.inj heq).1 hc
    · exact hme
  · unfold Ledger.Stands
    rw [hi, hr, hs, update_self]
    refine ⟨?_, ?_, fun hn n hme => ?_, fun hn n hme => ?_, fun hsa => ?_⟩
    · rw [current_credit, previous_credit]
      exact hk.made
    · rw [previous_credit]
      exact hk.issued_pos
    · rw [current_credit] at hn ⊢
      rcases mem_cons.mp hme with heq | hme
      · obtain ⟨-, heq⟩ := Prod.mk.inj heq
        obtain ⟨hu, rfl⟩ := Prod.mk.inj heq
        cases isCurrent with
        | true => exact mem_cons_self
        | false => exact absurd hu (h.number_ne (ne_nil_of_admitted ha))
      · exact hk.current hn n hme
    · rw [previous_credit] at hn ⊢
      rcases mem_cons.mp hme with heq | hme
      · obtain ⟨-, heq⟩ := Prod.mk.inj heq
        obtain ⟨hu, rfl⟩ := Prod.mk.inj heq
        cases isCurrent with
        | true => exact absurd hu.symm (h.number_ne hn)
        | false => exact mem_cons_self
      · exact hk.previous hn n hme
    · obtain ⟨hs', ho⟩ := Bool.or_eq_false_iff.mp hsa
      apply total_credit (hk.total hs')
      rw [hl.total]
      exact Nat.lt_of_not_le (of_decide_eq_false ho)
  · rw [hi]
    rw [hr] at hme
    rcases mem_cons.mp hme with heq | hme
    · obtain ⟨-, heq⟩ := Prod.mk.inj heq
      rw [(Prod.mk.inj heq).1]
      unfold Ledger.number
      split <;> omega
    · exact h.bounded client k n hme
  · rw [hr]
    exact nodup_cons.mpr ⟨h.not_credited ha, h.once⟩

theorem flushByAge_eq_some {clients : Clients β} {seconds : UInt64}
    (h : flushByAge clients now seconds client = some info) : clients client = some info := by
  unfold flushByAge at h
  exact (Option.filter_eq_some_iff.mp h).1

theorem Sound.step {op : Op β} (h : Sound env s) (ht : s.step env op = some t) : Sound env t := by
  cases op with
  | getInfo client top new now =>
    cases ht
    rcases getInfo_cases env s.clients now client top new with ⟨info', hcl, hl, ha⟩ | ⟨info', hcl, hr, ha⟩
    · refine h.lower hcl hl ?_ rfl rfl
      funext c
      by_cases hc : c = client
      · simp [hc, update_self, ha]
      · simp [update_of_ne hc]
    · refine h.rotate hcl hr ?_ rfl rfl
      simp [ha]
  | submitNonce client nonce cookie now =>
    cases ht
    rcases submitNonce_cases env s.clients now client nonce cookie with ⟨e, info', hs, hl⟩ | ⟨isCurrent, hd, hs⟩
    · refine h.lower (by rw [hs]) hl rfl (by rw [hs]) ?_
      funext c
      by_cases hc : c = client
      · simp [hc, update_self, hs, Except.isOk, Except.toBool]
      · simp [update_of_ne hc]
    · refine h.credit hd (by rw [hs]) rfl (by rw [hs]; simp) ?_
      simp [hs, Except.isOk, Except.toBool]
  | pay client ts payment sameTs now =>
    cases ht
    obtain ⟨info', hcl, hl⟩ := pay_cases s.clients now client ts payment sameTs
    exact h.lower hcl hl rfl rfl rfl
  | flush seconds now =>
    cases ht
    exact ⟨fun client info hi => h.stands client info (flushByAge_eq_some hi), h.bounded, h.once⟩

theorem creditsOf_lower_le (hl : Lowered (RpcPayment.infoOf s.clients now client) info') (c : PublicKey) :
    creditsOf (put s.clients client info') c ≤ creditsOf s.clients c := by
  rw [creditsOf_put]
  split
  · next hc =>
    rw [hc, creditsOf_eq_infoOf s.clients now client]
    exact hl.credits_le
  · exact Nat.le_refl _

theorem Sound.earned {op : Op β} (h : Sound env s) (hp : MeetsDiff env s op) (ht : s.step env op = some t)
    (ho : creditsOf s.clients c < creditsOf t.clients c) :
    ∃ nonce cookie now isCurrent, op = .submitNonce c nonce cookie now ∧
      Earned env s t c nonce cookie now isCurrent := by
  cases op with
  | getInfo client top new now =>
    cases ht
    refine absurd ho (Nat.not_lt.mpr ?_)
    rcases getInfo_cases env s.clients now client top new with ⟨info', hcl, hl, -⟩ | ⟨info', hcl, hr, -⟩
    · dsimp only
      rw [hcl]
      exact creditsOf_lower_le hl c
    · dsimp only
      rw [hcl, creditsOf_put]
      split
      · next hc => exact Nat.le_of_eq (by rw [hc, creditsOf_eq_infoOf s.clients now client, hr.credits])
      · exact Nat.le_refl _
  | submitNonce client nonce cookie now =>
    cases ht
    rcases submitNonce_cases env s.clients now client nonce cookie with ⟨e, info', hs, hl⟩ | ⟨isCurrent, ha, hs⟩
    · refine absurd ho (Nat.not_lt.mpr ?_)
      dsimp only
      rw [hs]
      exact creditsOf_lower_le hl c
    · have hc : c = client := by
        by_contra hc
        dsimp only at ho
        rw [hs, creditsOf_put, if_neg hc] at ho
        exact Nat.lt_irrefl _ ho
      subst hc
      have hold := h.infoOf now c
      refine ⟨nonce, cookie, now, isCurrent, rfl, ha, ?_, hp isCurrent ha, ?_, h.not_credited ha, ?_⟩
      · cases isCurrent with
        | true => exact hold.made.1
        | false => exact hold.made.2
      · dsimp only
        rw [hs, creditsOf_put, if_pos rfl, creditsOf_eq_infoOf s.clients now c]
        have hle := (lowered_remember (RpcPayment.infoOf s.clients now c) isCurrent nonce).credits_le
        rw [credits_credit, toNat_add64clamp]
        omega
      · dsimp only
        rw [hs]
        simp
  | pay client ts payment sameTs now =>
    cases ht
    obtain ⟨info', hcl, hl⟩ := pay_cases s.clients now client ts payment sameTs
    refine absurd ho (Nat.not_lt.mpr ?_)
    dsimp only
    rw [hcl]
    exact creditsOf_lower_le hl c
  | flush seconds now =>
    cases ht
    refine absurd ho (Nat.not_lt.mpr ?_)
    dsimp only
    unfold creditsOf
    cases hf : flushByAge s.clients now seconds c with
    | none => exact Nat.zero_le _
    | some info => exact Nat.le_of_eq (by rw [flushByAge_eq_some hf])

theorem Sound.found (h : Sound env s) {b : β}
    (hf : blockFound (submitNonce env s.clients now client nonce cookie).2 = some b) :
    ∃ r template, (submitNonce env s.clients now client nonce cookie).2 = .ok r ∧
      (RpcPayment.infoOf s.clients now client).current.block = some template ∧
      (RpcPayment.infoOf s.clients now client).current.hashingBlob = env.getBlockHashingBlob template ∧
      r.hash = powHash env (RpcPayment.infoOf s.clients now client).current nonce ∧ b = env.withNonce template nonce := by
  rcases submitNonce_cases env s.clients now client nonce cookie with ⟨e, info', hs, -⟩ | ⟨isCurrent, ha, hs⟩
  · rw [hs] at hf
    cases hf
  · rw [hs] at hf ⊢
    cases isCurrent with
    | false => cases hf
    | true =>
      rcases (h.infoOf now client).made.1 with hn | ⟨b₀, template, -, hb, hbb⟩
      · exact absurd hn (ne_nil_of_admitted ha)
      · refine ⟨_, template, rfl, hb, hbb, rfl, ?_⟩
        have hk : ((RpcPayment.infoOf s.clients now client).remember true nonce).current.block = some template := hb
        simpa [blockFound, hk] using hf.symm

end

/-- Where each admitted nonce meets the difficulty every step is fair, and the credits are accounted
for in every state. -/
theorem credits_earned {β : Type} (env : PaymentEnv β) {ops : List (Op β)}
    (hmeets : EveryStep (Ledger.step env) (MeetsDiff env) .empty ops) :
    (∀ pre op post s t, ops = pre ++ op :: post → run (Ledger.step env) .empty pre = some s →
      s.step env op = some t → Fair env s op t) ∧
    ∀ pre post t, ops = pre ++ post → run (Ledger.step env) .empty pre = some t → Accounted t := by
  have ho : ∀ pre t, run (Ledger.step env) .empty pre = some t → Sound env t :=
    fun pre t hr => run_preserves (fun _ _ _ hs ht => hs.step ht) sound_empty hr
  constructor
  · intro pre op post s t hp hr ht
    have hs := ho pre s hr
    refine ⟨fun client hmo => hs.earned (hmeets pre op post s hp hr) ht hmo, ?_⟩
    intro client nonce cookie now b _ hf
    exact hs.found hf
  · intro pre post t _ hr
    exact (ho pre t hr).accounted

namespace Sample

def paymentEnv : PaymentEnv (UInt8 × UInt32) where
  diff := 10
  creditsPerHashFound := 5000
  bindClient _ b := some b
  getBlockHashingBlob b := List.replicate 43 b.1
  majorVersion _ := 1
  getBlockHeight _ := 5
  withNonce b nonce := (b.1, nonce)
  rxSlowHash _ _ _ _ := 0
  cnSlowHash blob _ _ := if blob.getD 39 0 % 2 = 0 then 0 else BitVec.allOnes 256
  checkHash hash diff := hash.toNat * diff.toNat < 2 ^ 256

def submits (nonce : UInt32) : List (Op (UInt8 × UInt32)) :=
  [.getInfo 7 1 (some ⟨(3, 0), 0, 0⟩) 100, .submitNonce 7 nonce 1 101]

end Sample

open Sample

theorem meetsDiff_submits : EveryStep (Ledger.step paymentEnv) (MeetsDiff paymentEnv) .empty (submits 2) := by
  refine everyStep_cons trivial fun s hs => ?_
  cases hs
  refine everyStep_cons (fun isCurrent ha => ?_) fun _ _ => everyStep_nil
  cases isCurrent with
  | true => decide +kernel
  | false => exact absurd ha.which (by decide +kernel)

/-- A nonce that meets the difficulty earns 5000 credits. -/
theorem credits_earned_even : EveryStep (Ledger.step paymentEnv) (MeetsDiff paymentEnv) .empty (submits 2) ∧
      (run (Ledger.step paymentEnv) .empty (submits 2)).map (fun t => (creditsOf t.clients 7, t.credited)) =
        some (5000, [(7, 1, 2)]) ∧
      ∀ pre post t, submits 2 = pre ++ post → run (Ledger.step paymentEnv) .empty pre = some t → Accounted t :=
  ⟨meetsDiff_submits, by decide +kernel, (credits_earned paymentEnv meetsDiff_submits).2⟩

/-- So does one that does not meet it. -/
theorem odd_nonce_credited :
    ∃ s t, run (Ledger.step paymentEnv) .empty [.getInfo 7 1 (some ⟨(3, 0), 0, 0⟩) 100] = some s ∧
      s.step paymentEnv (.submitNonce 7 1 1 101) = some t ∧ creditsOf s.clients 7 = 0 ∧ creditsOf t.clients 7 = 5000 ∧
      paymentEnv.checkHash (powHash paymentEnv (infoOf s.clients 101 7).current 1) paymentEnv.diff = false ∧
      ¬Fair paymentEnv s (.submitNonce 7 1 1 101) t := by
  refine ⟨_, _, rfl, rfl, by decide +kernel, by decide +kernel, by decide +kernel, fun hf => ?_⟩
  obtain ⟨nonce, cookie, now, isCurrent, ho, ha⟩ := hf.earned 7 (by decide +kernel)
  cases ho
  cases isCurrent with
  | true => exact absurd ha.meets (by decide +kernel)
  | false => exact absurd ha.admitted.which (by decide +kernel)

end Gyro.RpcPayment
