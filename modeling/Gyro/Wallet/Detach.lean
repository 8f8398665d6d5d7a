import Gyro.Wallet.BlockScan

/-!
# Detaching blocks

`wallet2::detach_blockchain` cuts the transfers at the first one at or above the height,
which supposes them in the order of heights; a replaced one has kept its place.
-/

namespace Gyro.Wallet.Refresh

open Positions Runs List

/-- `set_unspent` and `thaw`, for a transfer that was spent at or above the height. -/
def Transfer.unspend (height : Nat) (td : Transfer) : Transfer :=
  if td.spent && td.spentHeight ≥ height then { td with spent := false, spentHeight := 0, frozen := false } else td

def detachBlockchain (height : Nat) (w : State) : Option State :=
  if height < w.blockchain.offset ∧ w.blockchain.size > w.blockchain.offset then none
  else
    let transfers := w.held.transfers.map (Transfer.unspend height)
    let start := transfers.findIdx (height ≤ ·.blockHeight)
    let detached := transfers.drop start
    (eraseEach w.held.keyImages
      ((detached.filter fun td => td.keyImageKnown && !td.keyImagePartial).map (·.keyImage))).bind fun keyImages =>
      (eraseEach w.held.pubKeys (detached.map (·.key))).map fun pubKeys =>
        { held := { transfers := transfers.take start, pubKeys, keyImages }
          payments := w.payments.filter fun p => !(height ≤ p.2.blockHeight)
          blockchain := w.blockchain.crop height }

def Transfer.view (td : Transfer) : (Hash × Nat × UInt64 × PublicKey) × UInt64 × Nat × Bool :=
  ((td.txid, td.internalOutputIndex, td.globalOutputIndex, td.key), td.amount, td.blockHeight, td.spent)

/-- The same transfers, maps, payments and hashes, but for those trimmed from the first. -/
structure Same (w w' : State) : Prop where
  transfers : w.held.transfers.map Transfer.view = w'.held.transfers.map Transfer.view
  keyImages : w.held.keyImages = w'.held.keyImages
  pubKeys : w.held.pubKeys = w'.held.pubKeys
  payments : w.payments = w'.payments
  size : w.blockchain.size = w'.blockchain.size
  hashes : ∀ i, w.blockchain.offset ≤ i → w.blockchain.get? i = w'.blockchain.get? i

def Account.ImagesDiffer (a : Account) : Prop :=
  ∀ k k' image, a.knownImage k = some image → a.knownImage k' = some image → k = k'

/-- The transfers of `base` stay but for being spent: no output replaces an unspent one with its
key, and no input spends twice or states another amount. A multisig wallet gets no output it has a
cold key image for. -/
def Quiet (a : Account) (base s : Held) : Event → Prop
  | .received _ _ o =>
    (s.pubKeys o.key = none → a.multisig = true → a.knownImage o.key = none) ∧
      ∀ k td, k < base.transfers.length → s.pubKeys o.key = some k → s.transfers[k]? = some td →
        td.spent = true ∨ o.amount ≤ td.amount
  | .spent _ (.toKey amount _ image) =>
    ∀ k td td₀, base.transfers[k]? = some td₀ → s.keyImages image = some k → s.transfers[k]? = some td →
      td₀.spent = false ∧ (amount = 0 ∨ amount = td.amount)
  | .spent _ _ => True

def Event.image? : Event → Option PublicKey
  | .spent _ input => input.keyImage?
  | _ => none

section
variable {a : Account} {n m : Nat} {s s' base : Held} {e : Event} {td td' : Transfer} {k : Nat}

/-! ## What the maps say -/

structure Regular (a : Account) (n : Nat) (td : Transfer) : Prop where
  height : td.blockHeight < n
  spent : td.spent = true → td.spentHeight < n
  unspent : td.spent = false → td.spentHeight = 0
  thawed : td.frozen = false
  image : ∀ image, a.knownImage td.key = some image → td.keyImage = image
  known : td.keyImageKnown = (a.knownImage td.key).isSome
  multisig : td.keyImagePartial = a.multisig

structure Sound (a : Account) (n : Nat) (s : Held) : Prop where
  keyed : Indexes (fun td => some td.key) s.transfers s.pubKeys
  imaged : Indexes (fun td => a.knownImage td.key) s.transfers s.keyImages
  regular : ∀ td ∈ s.transfers, Regular a n td

theorem sound_empty : Sound a n .empty :=
  ⟨indexes_nil, indexes_nil, fun _ htd => nomatch htd⟩

theorem Sound.mono (h : Sound a n s) (hle : n ≤ m) : Sound a m s := by
  refine ⟨h.keyed, h.imaged, ?_⟩
  intro td htd
  have hr := h.regular td htd
  exact { hr with
    height := hr.height.trans_le hle
    spent := fun hspent => (hr.spent hspent).trans_le hle }

theorem Sound.set (h : Sound a n s) (hk : s.transfers[k]? = some td) (hy : td'.key = td.key)
    (hr : Regular a n td') : Sound a n { s with transfers := s.transfers.set k td' } := by
  refine ⟨h.keyed.set hk ?_, h.imaged.set hk ?_, ?_⟩
  · rw [hy]
  · rw [hy]
  · intro x hx
    rcases mem_or_eq_of_mem_set hx with hx | rfl
    · exact h.regular x hx
    · exact hr

theorem Sound.push (h : Sound a n s) (hd : a.ImagesDiffer) (hf : s.pubKeys td.key = none)
    (hr : Regular a n td) : Sound a n (s.push a td) := by
  refine ⟨h.keyed.concat hf rfl, ?_, ?_⟩
  · unfold Held.push
    split
    · next image himage =>
      refine h.imaged.concat ?_ himage
      apply Option.eq_none_iff_forall_not_mem.mpr
      intro j hj
      obtain ⟨x, hx, hi⟩ := (h.imaged image j).mp hj
      have hk := hd _ _ _ hi himage
      have ho := h.keyed.find hx (congrArg some hk)
      rw [hf] at ho
      cases ho
    · next himage => exact h.imaged.concat_none himage
  · intro x hx
    rcases mem_append.mp hx with hx | hx
    · exact h.regular x hx
    · rw [mem_singleton.mp hx]
      exact hr

theorem regular_newTransfer {height : Nat} (hlt : height < n) (t : ScannedTx) (o : Found) :
    Regular a n (newTransfer a height t o) where
  height := hlt
  spent h := nomatch h
  unspent _ := rfl
  thawed := rfl
  image image himage := by
    have hk : (newTransfer a height t o).key = o.key := rfl
    rw [hk] at himage
    simp only [newTransfer, himage, Option.getD_some]
  known := rfl
  multisig := rfl

theorem step_cases (h : s.step a e = some s') : s' = s ∨
    (∃ height t o, e = .received height t o ∧ s.pubKeys o.key = none ∧ s' = s.push a (newTransfer a height t o)) ∨
    (∃ height t o k td, e = .received height t o ∧ s.pubKeys o.key = some k ∧ s.transfers[k]? = some td ∧
      td.spent = false ∧ td.amount < o.amount ∧
      s' = { s with transfers := s.transfers.set k (td.replace height t o) }) ∨
    ∃ height amount offsets image k td, e = .spent height (.toKey amount offsets image) ∧
      s.keyImages image = some k ∧ s.transfers[k]? = some td ∧
      s' = { s with transfers := s.transfers.set k (td.spend height amount) } := by
  cases e with
  | received height t o =>
    cases h
    unfold Held.receive
    split
    · next hn => exact Or.inr (Or.inl ⟨height, t, o, rfl, hn, rfl⟩)
    · next k hk =>
      split
      · exact Or.inl rfl
      · next td htd =>
        split
        · exact Or.inl rfl
        · next hl =>
          rw [Bool.or_eq_true, decide_eq_true_iff, not_or, Bool.not_eq_true] at hl
          refine Or.inr (Or.inr (Or.inl ⟨height, t, o, k, td, rfl, hk, htd, hl.1, ?_, rfl⟩))
          exact UInt64.not_le.mp hl.2
  | spent height input =>
    cases h
    cases input with
    | toKey amount offsets image =>
      dsimp only [Held.spend]
      split
      · exact Or.inl rfl
      · next k hk =>
        split
        · exact Or.inl rfl
        · next td htd => exact Or.inr (Or.inr (Or.inr ⟨height, amount, offsets, image, k, td, rfl, hk, htd, rfl⟩))
    | gen => exact Or.inl rfl
    | toScript => exact Or.inl rfl
    | toScripthash => exact Or.inl rfl

theorem Sound.step (h : Sound a n s) (hd : a.ImagesDiffer) (hlt : e.height < n) (hs : s.step a e = some s') :
    Sound a n s' := by
  rcases step_cases hs with rfl | ⟨height, t, o, rfl, hf, rfl⟩ |
      ⟨height, t, o, k, td, rfl, hk, htd, hu, -, rfl⟩ | ⟨height, amount, offsets, image, k, td, rfl, hk, htd, rfl⟩
  · exact h
  · exact h.push hd hf (regular_newTransfer hlt t o)
  · have hr := h.regular td (List.mem_of_getElem? htd)
    exact h.set htd rfl { hr with height := hlt }
  · have hr := h.regular td (List.mem_of_getElem? htd)
    exact h.set htd rfl { hr with spent := fun _ => hlt, unspent := fun hspent => nomatch hspent }

variable {events : List Event}

theorem Sound.run (h : Sound a n s) (hd : a.ImagesDiffer)
    (hlt : ∀ e ∈ events, e.height < n) (hr : run (Held.step a) s events = some s') : Sound a n s' := by
  refine run_invariant (P := fun _ e => e.height < n) (fun u e t hu he ht => hu.step hd he ht) h ?_ hr
  intro pre e post u heq _
  exact hlt e (by rw [heq]; simp)

def Kept (n : Nat) (td td' : Transfer) : Prop :=
  td' = td ∨ td.spent = false ∧ ∃ height, n ≤ height ∧ td' = { td with spent := true, spentHeight := height }

theorem Kept.key (h : Kept n td td') : td'.key = td.key := by
  rcases h with rfl | ⟨-, height, -, rfl⟩
  · rfl
  · rfl

theorem Kept.amount (h : Kept n td td') : td'.amount = td.amount := by
  rcases h with rfl | ⟨-, height, -, rfl⟩
  · rfl
  · rfl

theorem Kept.unspend (h : Kept n td td') (hr : Regular a n td) : td'.unspend n = td := by
  rcases h with rfl | ⟨hu, height, hle, rfl⟩
  · unfold Transfer.unspend
    rw [if_neg]
    rw [Bool.and_eq_true, decide_eq_true_iff]
    rintro ⟨hspent, hle⟩
    exact Nat.not_lt.mpr hle (hr.spent hspent)
  · unfold Transfer.unspend
    rw [if_pos]
    · have hzero := hr.unspent hu
      have ht := hr.thawed
      cases td with
      | mk details _ _ _ _ _ _ _ _ _ _ =>
        cases details
        subst hu hzero ht
        rfl
    · simp [hle]

/-- The transfers of `base` are kept, and all others were received from height `n` on. -/
structure Grown (a : Account) (base : Held) (n : Nat) (s : Held) : Prop where
  old : ∀ (k : Nat) td, base.transfers[k]? = some td → ∃ td', s.transfers[k]? = some td' ∧ Kept n td td'
  new : ∀ (k : Nat) td', base.transfers.length ≤ k → s.transfers[k]? = some td' →
    n ≤ td'.blockHeight ∧ (a.multisig = true → a.knownImage td'.key = none)

theorem Grown.refl (base : Held) : Grown a base n base := by
  refine ⟨fun k td htd => ⟨td, htd, Or.inl rfl⟩, ?_⟩
  intro k td' hle htd'
  rw [List.getElem?_eq_none hle] at htd'
  cases htd'

theorem getElem?_set_at {α : Type} {l : List α} {x y : α} {k : Nat} (h : l[k]? = some x) : (l.set k y)[k]? = some y := by
  rw [List.getElem?_set_self', h]
  rfl

theorem Grown.set (h : Grown a base n s) (hle : base.transfers.length ≤ k)
    (htd' : n ≤ td'.blockHeight ∧ (a.multisig = true → a.knownImage td'.key = none)) :
    Grown a base n { s with transfers := s.transfers.set k td' } := by
  constructor
  · intro j td htd
    obtain ⟨x, hx, hke⟩ := h.old j td htd
    refine ⟨x, ?_, hke⟩
    have hlt := (List.getElem?_eq_some_iff.mp htd).1
    rw [List.getElem?_set_ne (Nat.ne_of_gt (hlt.trans_le hle))]
    exact hx
  · intro j x hj hx
    by_cases hk : k = j
    · subst hk
      rw [List.getElem?_set_self'] at hx
      obtain ⟨y, -, rfl⟩ := Option.map_eq_some_iff.mp hx
      exact htd'
    · rw [List.getElem?_set_ne hk] at hx
      exact h.new j x hj hx

theorem Grown.step (h : Grown a base n s) (hle : n ≤ e.height) (hq : Quiet a base s e)
    (hs : s.step a e = some s') : Grown a base n s' := by
  rcases step_cases hs with rfl | ⟨height, t, o, rfl, hf, rfl⟩ |
      ⟨height, t, o, k, td, rfl, hk, htd, hu, hr, rfl⟩ |
      ⟨height, amount, offsets, image, k, td, rfl, hk, htd, rfl⟩
  · exact h
  · constructor
    · intro k td htd
      obtain ⟨td', htd', hke⟩ := h.old k td htd
      exact ⟨td', getElem?_concat_eq_some.mpr (Or.inl htd'), hke⟩
    · intro k td' hk htd'
      rcases getElem?_concat_eq_some.mp htd' with htd' | ⟨-, rfl⟩
      · exact h.new k td' hk htd'
      · exact ⟨hle, hq.1 hf⟩
  · have hl : base.transfers.length ≤ k := by
      by_contra hlt
      rcases hq.2 k td (Nat.lt_of_not_le hlt) hk htd with hspent | hsm
      · rw [hu] at hspent
        cases hspent
      · exact UInt64.not_le.mpr hr hsm
    exact h.set hl ⟨hle, (h.new k td hl htd).2⟩
  · by_cases hl : base.transfers.length ≤ k
    · exact h.set hl (h.new k td hl htd)
    · -- The transfer is one of `base`: it is spent, and keeps its amount.
      have hlt := Nat.lt_of_not_le hl
      have hold := List.getElem?_eq_getElem hlt
      obtain ⟨hu, hamount⟩ := hq k td _ hold hk htd
      obtain ⟨x, hx, hke⟩ := h.old k _ hold
      cases htd.symm.trans hx
      have hp : Kept n base.transfers[k] (td.spend height amount) := by
        have ha : (if 0 < amount then amount else td.amount) = base.transfers[k].amount := by
          rw [← hke.amount]
          rcases hamount with rfl | rfl
          · exact if_neg (by decide)
          · split <;> rfl
        refine Or.inr ⟨hu, height, hle, ?_⟩
        unfold Transfer.spend
        rw [ha]
        rcases hke with hke | ⟨-, _, -, hke⟩
        · rw [hke]
        · rw [hke]
      constructor
      · intro j td₀ ht₀
        by_cases hjk : k = j
        · subst hjk
          cases hold.symm.trans ht₀
          exact ⟨_, getElem?_set_at htd, hp⟩
        · obtain ⟨y, hy, hy'⟩ := h.old j td₀ ht₀
          refine ⟨y, ?_, hy'⟩
          rw [List.getElem?_set_ne hjk]
          exact hy
      · intro j y hj hy
        rw [List.getElem?_set_ne (Nat.ne_of_lt (hlt.trans_le hj))] at hy
        exact h.new j y hj hy

section
variable (n : Nat) (td : Transfer)

@[simp] theorem blockHeight_unspend : (td.unspend n).blockHeight = td.blockHeight := by
  unfold Transfer.unspend
  split <;> rfl

@[simp] theorem key_unspend : (td.unspend n).key = td.key := by
  unfold Transfer.unspend
  split <;> rfl

@[simp] theorem amount_unspend : (td.unspend n).amount = td.amount := by
  unfold Transfer.unspend
  split <;> rfl

@[simp] theorem keyImage_unspend : (td.unspend n).keyImage = td.keyImage := by
  unfold Transfer.unspend
  split <;> rfl

@[simp] theorem keyImageKnown_unspend : (td.unspend n).keyImageKnown = td.keyImageKnown := by
  unfold Transfer.unspend
  split <;> rfl

@[simp] theorem keyImagePartial_unspend : (td.unspend n).keyImagePartial = td.keyImagePartial := by
  unfold Transfer.unspend
  split <;> rfl

end

theorem Grown.map_unspend (h : Grown a base n s) (hb : Sound a n base) : s.transfers.map (Transfer.unspend n) =
      base.transfers ++ (s.transfers.drop base.transfers.length).map (Transfer.unspend n) := by
  have ht : (s.transfers.take base.transfers.length).map (Transfer.unspend n) = base.transfers := by
    apply List.ext_getElem?
    intro k
    rw [List.getElem?_map]
    rcases Nat.lt_or_ge k base.transfers.length with hlt | hg
    · have hk := List.getElem?_eq_getElem hlt
      obtain ⟨td', htd', hke⟩ := h.old k _ hk
      rw [List.getElem?_take_of_lt hlt, htd', hk]
      exact congrArg some (hke.unspend (hb.regular _ (getElem_mem hlt)))
    · rw [List.getElem?_eq_none hg, List.getElem?_eq_none]
      · rfl
      · rw [length_take]
        omega
  rw [← take_append_drop base.transfers.length s.transfers, map_append, ht, take_append_drop]

theorem Grown.findIdx (h : Grown a base n s) (hb : Sound a n base) :
    (s.transfers.map (Transfer.unspend n)).findIdx (n ≤ ·.blockHeight) = base.transfers.length := by
  rw [h.map_unspend hb, findIdx_append, if_neg]
  · have hl : ∀ td ∈ (s.transfers.drop base.transfers.length).map (Transfer.unspend n), n ≤ td.blockHeight := by
      intro td htd
      obtain ⟨td', htd', rfl⟩ := mem_map.mp htd
      obtain ⟨i, hi⟩ := List.mem_iff_getElem?.mp htd'
      rw [List.getElem?_drop] at hi
      rw [blockHeight_unspend]
      exact (h.new _ td' (Nat.le_add_right _ i) hi).1
    cases hr : (s.transfers.drop base.transfers.length).map (Transfer.unspend n) with
    | nil => simp
    | cons td rest =>
      have hf := hl td (by rw [hr]; exact mem_cons_self)
      simp [findIdx_cons, hf]
  · intro hlt
    obtain ⟨td, htd, hle⟩ := findIdx_lt_length.mp hlt
    exact Nat.not_lt.mpr (of_decide_eq_true hle) (hb.regular td htd).height

theorem Grown.images (h : Grown a base n s) (hs : Sound a m s) :
    ((((s.transfers.drop base.transfers.length).map (Transfer.unspend n)).filter
        fun td => td.keyImageKnown && !td.keyImagePartial).map (·.keyImage)) =
      ((s.transfers.drop base.transfers.length).map (Transfer.unspend n)).filterMap fun td => a.knownImage td.key := by
  rw [← filterMap_eq_map, ← filterMap_eq_filter, filterMap_filterMap]
  apply filterMap_congr
  intro x hx
  obtain ⟨td, htd, rfl⟩ := mem_map.mp hx
  have hr := hs.regular td (mem_of_mem_drop htd)
  obtain ⟨i, hi⟩ := List.mem_iff_getElem?.mp htd
  rw [List.getElem?_drop] at hi
  have hc := (h.new _ td (Nat.le_add_right _ i) hi).2
  cases himage : a.knownImage td.key with
  | none => simp [Option.guard, hr.known, himage]
  | some image =>
    have ho : a.multisig = false := by
      by_contra hmulti
      rw [hc (Bool.not_eq_false _ ▸ hmulti)] at himage
      cases himage
    simp [Option.guard, hr.known, hr.multisig, ho, himage, hr.image image himage]

theorem Grown.detach {w : State} (h : Grown a base n w.held) (hb : Sound a n base) (hs : Sound a m w.held)
    (ho : w.blockchain.offset ≤ n) : detachBlockchain n w = some
      { held := base
        payments := w.payments.filter fun p => !(n ≤ p.2.blockHeight)
        blockchain := w.blockchain.crop n } := by
  have ha := h.map_unspend hb
  have ht : (w.held.transfers.map (Transfer.unspend n)).take base.transfers.length = base.transfers := by
    rw [ha, take_left']
    rfl
  have hd : (w.held.transfers.map (Transfer.unspend n)).drop base.transfers.length =
      (w.held.transfers.drop base.transfers.length).map (Transfer.unspend n) := map_drop.symm
  have hi : Indexes (fun td => a.knownImage td.key) (w.held.transfers.map (Transfer.unspend n))
      w.held.keyImages := by
    apply hs.imaged.congr
    simp [Function.comp_def]
  have hk : Indexes (fun td => some td.key) (w.held.transfers.map (Transfer.unspend n)) w.held.pubKeys := by
    apply hs.keyed.congr
    simp [Function.comp_def]
  obtain ⟨hr, hl⟩ := hi.cut base.transfers.length
  obtain ⟨he', hl'⟩ := hk.cut base.transfers.length
  rw [ht] at hl hl'
  rw [hl.ext hb.imaged] at hr
  rw [hl'.ext hb.keyed, filterMap_eq_map'] at he'
  unfold detachBlockchain
  rw [if_neg fun hbe => Nat.not_lt.mpr ho hbe.1]
  dsimp only
  rw [h.findIdx hb, ht, hd, h.images hs, ← hd, hr, Option.bind_some, he', Option.map_some]

/-! ## Blocks that are not quiet -/

/-- A trace on `base` or the key images that detaching does not take back. -/
inductive Broken (a : Account) (base : Held) (n : Nat) (events : List Event) (s : Held) : Prop
  | replaced (k : Nat) (td' : Transfer) (hlt : k < base.transfers.length) (htd' : s.transfers[k]? = some td')
      (hheight : n ≤ td'.blockHeight)
  | respent (k : Nat) (td td' : Transfer) (htd : base.transfers[k]? = some td) (htd' : s.transfers[k]? = some td')
      (hbefore : td.spent = true) (hspent : td'.spent = true) (hheight : n ≤ td'.spentHeight)
  | restated (k : Nat) (td td' : Transfer) (image : PublicKey) (htd : base.transfers[k]? = some td)
      (htd' : s.transfers[k]? = some td') (hamount : td'.amount ≠ td.amount) (hspent : td'.spent = true)
      (himage : a.knownImage td'.key = some image) (honce : image ∉ events.filterMap Event.image?)
  | image (image : PublicKey) (hmulti : a.multisig = true) (hbefore : base.keyImages image = none)
      (hafter : (s.keyImages image).isSome)

theorem Grown.breaks (h : Grown a base n s) (hb : Sound a n base) (hs : Sound a m s)
    (hd : a.ImagesDiffer) (hle : n ≤ e.height) (honce : ((e :: events).filterMap Event.image?).Nodup)
    (hq : ¬Quiet a base s e) (ht : s.step a e = some s') : Broken a base n events s' := by
  cases e with
  | received height t o =>
    cases ht
    rcases not_and_or.mp hq with hc | hl
    · push Not at hc
      obtain ⟨hf, hmulti, hn⟩ := hc
      obtain ⟨image, himage⟩ := Option.ne_none_iff_exists'.mp hn
      apply Broken.image image hmulti
      · apply Option.eq_none_iff_forall_not_mem.mpr
        intro k hk
        obtain ⟨td, htd, hi⟩ := (hb.imaged image k).mp hk
        obtain ⟨td', htd', hke⟩ := h.old k td htd
        have hky : td'.key = o.key := hke.key.trans (hd _ _ _ hi himage)
        have ho := hs.keyed.find htd' (congrArg some hky)
        rw [hf] at ho
        cases ho
      · have hp : s.receive a height t o = s.push a (newTransfer a height t o) := by
          unfold Held.receive
          rw [hf]
        rw [hp]
        have hky : (newTransfer a height t o).key = o.key := rfl
        simp [Held.push, hky, himage, assign]
    · push Not at hl
      obtain ⟨k, td, hlt, hk, htd, hu, hl⟩ := hl
      have hr : s.receive a height t o = { s with transfers := s.transfers.set k (td.replace height t o) } := by
        unfold Held.receive
        rw [hk]
        dsimp only
        rw [htd]
        dsimp only
        rw [if_neg]
        rw [Bool.or_eq_true, decide_eq_true_iff, not_or]
        exact ⟨hu, hl⟩
      rw [hr]
      exact Broken.replaced k (td.replace height t o) hlt (getElem?_set_at htd) hle
  | spent height input =>
    cases ht
    cases input with
    | toKey amount offsets image =>
      unfold Quiet at hq
      push Not at hq
      obtain ⟨k, td, td₀, ht₀, hk, htd, ha⟩ := hq
      have hsp : s.spend height (.toKey amount offsets image) =
          { s with transfers := s.transfers.set k (td.spend height amount) } := by
        dsimp only [Held.spend]
        rw [hk]
        dsimp only
        rw [htd]
      have hse := @getElem?_set_at _ _ _ (td.spend height amount) _ htd
      rw [hsp]
      obtain ⟨x, hx, hke⟩ := h.old k td₀ ht₀
      cases htd.symm.trans hx
      cases hbefore : td₀.spent with
      | true => exact Broken.respent k td₀ _ ht₀ hse hbefore rfl hle
      | false =>
        obtain ⟨hnn, hot⟩ := ha hbefore
        have hpo : 0 < amount := UInt64.pos_iff_ne_zero.mpr hnn
        obtain ⟨y, hy, hyi⟩ := (hs.imaged image k).mp hk
        cases htd.symm.trans hy
        refine Broken.restated k td₀ _ image ht₀ hse ?_ rfl hyi ?_
        · have hsta : (td.spend height amount).amount = amount := if_pos hpo
          rw [hsta, ← hke.amount]
          exact hot
        · exact (nodup_cons.mp honce).1
    | gen => exact absurd trivial hq
    | toScript => exact absurd trivial hq
    | toScripthash => exact absurd trivial hq

theorem step_at (hs : Sound a m s) (ht : s.step a e = some s') (htd : s.transfers[k]? = some td) :
    ∃ td', s'.transfers[k]? = some td' ∧ td'.key = td.key ∧ (td' = td ∨
        (td.spent = false ∧ td'.spent = false ∧ td'.blockHeight = e.height) ∨
        (td'.blockHeight = td.blockHeight ∧ td'.spent = true ∧ td'.spentHeight = e.height ∧
          ∃ image, e.image? = some image ∧ a.knownImage td.key = some image)) := by
  rcases step_cases ht with rfl | ⟨height, t, o, rfl, -, rfl⟩ |
      ⟨height, t, o, j, x, rfl, hj, hx, hu, -, rfl⟩ | ⟨height, amount, offsets, image, j, x, rfl, hj, hx, rfl⟩
  · exact ⟨td, htd, rfl, Or.inl rfl⟩
  · exact ⟨td, getElem?_concat_eq_some.mpr (Or.inl htd), rfl, Or.inl rfl⟩
  · by_cases hk : j = k
    · subst hk
      cases htd.symm.trans hx
      exact ⟨td.replace height t o, getElem?_set_at htd, rfl, Or.inr (Or.inl ⟨hu, hu, rfl⟩)⟩
    · refine ⟨td, ?_, rfl, Or.inl rfl⟩
      rw [List.getElem?_set_ne hk]
      exact htd
  · by_cases hk : j = k
    · subst hk
      cases htd.symm.trans hx
      refine ⟨td.spend height amount, getElem?_set_at htd, rfl, Or.inr (Or.inr ⟨rfl, rfl, rfl, ?_⟩)⟩
      obtain ⟨y, hy, hi⟩ := (hs.imaged image j).mp hj
      cases htd.symm.trans hy
      exact ⟨image, rfl, hi⟩
    · refine ⟨td, ?_, rfl, Or.inl rfl⟩
      rw [List.getElem?_set_ne hk]
      exact htd

theorem step_keyImages {image : PublicKey} (hs : s.step a e = some s') (h : (s.keyImages image).isSome) :
    (s'.keyImages image).isSome := by
  rcases step_cases hs with rfl | ⟨height, t, o, -, -, rfl⟩ | ⟨_, _, _, _, _, -, -, -, -, -, rfl⟩ |
      ⟨_, _, _, _, _, _, -, -, -, rfl⟩
  · exact h
  · cases hk : a.knownImage (newTransfer a height t o).key with
    | none => simpa only [Held.push, hk] using h
    | some image' =>
      simp only [Held.push, hk, assign]
      split
      · rfl
      · exact h
  · exact h
  · exact h

theorem Broken.step (h : Broken a base n (e :: events) s) (hs : Sound a m s)
    (hle : n ≤ e.height) (ht : s.step a e = some s') : Broken a base n events s' := by
  cases h with
  | replaced k td hlt htd hheight =>
    obtain ⟨td', htd', -, hc⟩ := step_at hs ht htd
    refine Broken.replaced k td' hlt htd' ?_
    rcases hc with rfl | ⟨-, -, ha⟩ | ⟨ha, -⟩
    · exact hheight
    · rw [ha]
      exact hle
    · rw [ha]
      exact hheight
  | respent k td₀ td ht₀ htd hbefore hspent hheight =>
    obtain ⟨td', htd', -, hc⟩ := step_at hs ht htd
    rcases hc with rfl | ⟨hu, -⟩ | ⟨-, hs', ha, -⟩
    · exact Broken.respent k td₀ _ ht₀ htd' hbefore hspent hheight
    · rw [hspent] at hu
      cases hu
    · exact Broken.respent k td₀ td' ht₀ htd' hbefore hs' (ha ▸ hle)
  | restated k td₀ td image ht₀ htd hamount hspent himage honce =>
    have ho' : image ∉ events.filterMap Event.image? := by
      intro hme
      apply honce
      rw [filterMap_cons]
      split
      · exact hme
      · exact mem_cons_of_mem _ hme
    obtain ⟨td', htd', -, hc⟩ := step_at hs ht htd
    rcases hc with rfl | ⟨hu, -⟩ | ⟨-, -, -, image', hn, ha⟩
    · exact Broken.restated k td₀ _ image ht₀ htd' hamount hspent himage ho'
    · rw [hspent] at hu
      cases hu
    · cases himage.symm.trans ha
      refine absurd ?_ honce
      rw [filterMap_cons, hn]
      exact mem_cons_self
  | image image hmulti hbefore hafter =>
    exact Broken.image image hmulti hbefore (step_keyImages ht hafter)

theorem Broken.run (h : Broken a base n events s) (hs : Sound a m s)
    (hd : a.ImagesDiffer) (hle : ∀ e ∈ events, n ≤ e.height ∧ e.height < m)
    (hr : run (Held.step a) s events = some s') : Broken a base n [] s' := by
  induction events generalizing s with
  | nil =>
    cases hr
    exact h
  | cons e events ih =>
    obtain ⟨t, ht, hre⟩ := run_cons_eq_some.mp hr
    obtain ⟨hl, hh⟩ := hle e mem_cons_self
    exact ih (h.step hs hl ht) (hs.step hd hh ht)
      (fun e he => hle e (mem_cons_of_mem _ he)) hre

theorem Grown.quiet_or_broken (h : Grown a base n s) (hb : Sound a n base)
    (hs : Sound a m s) (hd : a.ImagesDiffer) (hle : ∀ e ∈ events, n ≤ e.height ∧ e.height < m)
    (honce : (events.filterMap Event.image?).Nodup) (hu : Runs.run (Held.step a) s events = some s') :
    EveryStep (Held.step a) (Quiet a base) s events ∨ Broken a base n [] s' := by
  induction events generalizing s with
  | nil => exact Or.inl everyStep_nil
  | cons e events ih =>
    obtain ⟨t, ht, hr⟩ := run_cons_eq_some.mp hu
    obtain ⟨hl, hh⟩ := hle e mem_cons_self
    have hle' : ∀ e ∈ events, n ≤ e.height ∧ e.height < m := fun e he => hle e (mem_cons_of_mem _ he)
    have hs' := hs.step hd hh ht
    by_cases hq : Quiet a base s e
    · have ho' : (events.filterMap Event.image?).Nodup :=
        List.Nodup.sublist ((sublist_cons_self e events).filterMap _) honce
      rcases ih (h.step hl hq ht) hs' hle' ho' hr with hv | hbr
      · left
        refine everyStep_cons hq ?_
        intro t' ht'
        cases ht.symm.trans ht'
        exact hv
      · exact Or.inr hbr
    · exact Or.inr ((h.breaks hb hs hd hl honce hq ht).run hs' hd hle' hr)

theorem detachBlockchain_held {w w' : State} (h : detachBlockchain n w = some w') :
    (∃ start, w'.held.transfers = (w.held.transfers.map (Transfer.unspend n)).take start ∧
      ∀ (k : Nat) td, w.held.transfers[k]? = some td → n ≤ td.blockHeight → start ≤ k) ∧
    ((∀ td ∈ w.held.transfers, td.keyImagePartial = true) → w'.held.keyImages = w.held.keyImages) ∧
    w'.blockchain = w.blockchain.crop n := by
  unfold detachBlockchain at h
  split at h
  · cases h
  · obtain ⟨keyImages, hkm, h⟩ := Option.bind_eq_some_iff.mp h
    obtain ⟨pubKeys, -, rfl⟩ := Option.map_eq_some_iff.mp h
    refine ⟨⟨_, rfl, ?_⟩, ?_, rfl⟩
    · intro k td htd hheight
      by_contra hlt
      apply of_decide_eq_false (not_of_lt_findIdx (Nat.lt_of_not_le hlt))
      obtain ⟨hk, rfl⟩ := List.getElem?_eq_some_iff.mp htd
      simpa using hheight
    · intro hmulti
      have hn : ∀ xs : List Transfer, (∀ td ∈ xs, td.keyImagePartial = true) →
          (xs.filter fun td => td.keyImageKnown && !td.keyImagePartial) = [] := by
        intro xs hs
        apply filter_eq_nil_iff.mpr
        intro td htd
        simp [hs td htd]
      rw [hn] at hkm
      · cases hkm
        rfl
      · intro td htd
        obtain ⟨x, hx, rfl⟩ := mem_map.mp (mem_of_mem_drop htd)
        rw [keyImagePartial_unspend]
        exact hmulti x hx

theorem Broken.not_restored {w w' : State} (h : Broken a base n [] w.held) (hs : Sound a m w.held)
    (hd : detachBlockchain n w = some w') :
    w'.held.transfers.map Transfer.view ≠ base.transfers.map Transfer.view ∨ w'.held.keyImages ≠ base.keyImages := by
  obtain ⟨⟨start, ht, hr⟩, hk, -⟩ := detachBlockchain_held hd
  by_contra hsa
  obtain ⟨hv, him⟩ := not_or.mp hsa
  rw [not_ne_iff] at hv him
  -- The transfer at a position of `base` has the view it has there.
  have ha : ∀ (k : Nat) td₀, base.transfers[k]? = some td₀ → ∀ td, w.held.transfers[k]? = some td →
      k < start ∧ (td.unspend n).view = td₀.view := by
    intro k td₀ ht₀ td htd
    have hi := congrArg (·[k]?) hv
    simp only [List.getElem?_map, ht₀, Option.map_some] at hi
    obtain ⟨x, hx, hxv⟩ := Option.map_eq_some_iff.mp hi
    rw [ht] at hx
    have hlt : k < start := by
      have hlen := (List.getElem?_eq_some_iff.mp hx).1
      rw [length_take] at hlen
      omega
    rw [List.getElem?_take_of_lt hlt, List.getElem?_map, htd] at hx
    cases hx
    exact ⟨hlt, hxv⟩
  cases h with
  | replaced k td hlt htd hheight =>
    obtain ⟨hc, -⟩ := ha k _ (List.getElem?_eq_getElem hlt) td htd
    exact Nat.not_lt.mpr (hr k td htd hheight) hc
  | respent k td₀ td ht₀ htd hbefore hspent hheight =>
    obtain ⟨-, hi⟩ := ha k td₀ ht₀ td htd
    have hf : (td.unspend n).spent = td₀.spent := congrArg (·.2.2.2) hi
    have hn : (td.unspend n).spent = false := by
      unfold Transfer.unspend
      rw [if_pos (by simp [hspent, hheight])]
    rw [hn, hbefore] at hf
    cases hf
  | restated k td₀ td image ht₀ htd hamount hspent himage honce =>
    obtain ⟨-, hi⟩ := ha k td₀ ht₀ td htd
    have hu : (td.unspend n).amount = td₀.amount := congrArg (·.2.1) hi
    rw [amount_unspend] at hu
    exact hamount hu
  | image image hmulti hbefore hafter =>
    have hke := hk fun td htd => (hs.regular td htd).multisig.trans hmulti
    rw [← hke, him, hbefore] at hafter
    cases hafter

end

/-! ## Reorganizations -/

section
variable {a : Account} {c : Hashchain} {below above : List Op} {w₀ w : State}

theorem Follows.filter_payments (h₀ : Follows a below (.new c) w₀) (h : Follows a above w₀ w) :
    w.payments.filter (fun p => !(w₀.blockchain.size ≤ p.2.blockHeight)) = w₀.payments := by
  obtain ⟨old, hold, ha⟩ := h₀.payments
  obtain ⟨added, hd, hl⟩ := h.payments
  have hk : w₀.payments.filter (fun p => !(w₀.blockchain.size ≤ p.2.blockHeight)) = w₀.payments := by
    apply filter_eq_self.mpr
    intro p hp
    rw [hold] at hp
    simpa using (ha p hp).2
  have ho : added.filter (fun p => !(w₀.blockchain.size ≤ p.2.blockHeight)) = [] := by
    apply filter_eq_nil_iff.mpr
    intro p hp
    simpa using (hl p hp).1
  rw [hd, filter_append, hk, ho, append_nil]

theorem Follows.get?_crop (h : Follows a above w₀ w) (ho : w.blockchain.offset ≤ w₀.blockchain.size) {i : Nat}
    (hi : w.blockchain.offset ≤ i) : (w.blockchain.crop w₀.blockchain.size).get? i = w₀.blockchain.get? i := by
  rcases Nat.lt_or_ge i w₀.blockchain.size with hlt | hg
  · rw [Hashchain.get?_crop h.size_le hlt]
    exact h.hashes i hi hlt
  · rw [Hashchain.get?_of_size_le hg]
    apply Hashchain.get?_of_size_le
    rw [Hashchain.size_crop ho]
    exact hg

end

/-- There are blocks from `height` on or it is the next one, and each of their events is quiet. -/
structure Undisturbed (a : Account) (height : Nat) (ops : List Op) (w₀ w : State) : Prop where
  reached : height ≤ w.blockchain.size
  quiet : EveryStep (Held.step a) (Quiet a w₀.held) w₀.held (eventsFrom a w₀.blockchain.size ops)

def Restores (height : Nat) (w w₀ : State) : Prop := ∃ w', detachBlockchain height w = some w' ∧ Same w' w₀

/-- Above the trimmed offset, detaching restores the wallet where the blocks are quiet, and only
then where no key image is spent twice in them. -/
theorem detach_restores {a : Account} (hdiffer : a.ImagesDiffer) {c : Hashchain} {below above : List Op}
    {w₀ w : State} {height : Nat} (hbelow : run (State.step a) (.new c) below = some w₀)
    (habove : run (State.step a) w₀ above = some w)
    (hsize : w₀.blockchain.size = min height w.blockchain.size) (hoffset : w.blockchain.offset < height) :
    (Undisturbed a height above w₀ w → Restores height w w₀) ∧
      (((eventsFrom a w₀.blockchain.size above).filterMap Event.image?).Nodup →
        Restores height w w₀ → Undisturbed a height above w₀ w) := by
  have hf₀ := follows_of_run hbelow
  have hf := follows_of_run habove
  have hb : Sound a w₀.blockchain.size w₀.held :=
    sound_empty.run hdiffer (fun e he => (hf₀.heights e he).2) hf₀.held
  have hs : Sound a w.blockchain.size w.held :=
    (hb.mono hf.size_le).run hdiffer (fun e he => (hf.heights e he).2) hf.held
  constructor
  · rintro ⟨hr, hq⟩
    rw [Nat.min_eq_left hr] at hsize
    subst hsize
    have hg : Grown a w₀.held w₀.blockchain.size w.held := by
      refine run_invariant (P := fun s e => Quiet a w₀.held s e ∧ w₀.blockchain.size ≤ e.height)
        (fun s e t hg he ht => hg.step he.2 he.1 ht) (Grown.refl w₀.held) ?_ hf.held
      intro pre e post s heq hu
      refine ⟨hq pre e post s heq hu, (hf.heights e ?_).1⟩
      rw [heq]
      simp
    refine ⟨_, hg.detach hb hs (Nat.le_of_lt hoffset), ⟨rfl, rfl, rfl, hf₀.filter_payments hf, ?_, ?_⟩⟩
    · exact Hashchain.size_crop (Nat.le_of_lt hoffset)
    · intro i hi
      exact hf.get?_crop (Nat.le_of_lt hoffset) hi
  · rintro honce ⟨w', hd, ha⟩
    have hr : height ≤ w.blockchain.size := by
      have hcr : w'.blockchain.size = height := by
        rw [(detachBlockchain_held hd).2.2]
        exact Hashchain.size_crop (Nat.le_of_lt hoffset)
      have := ha.size
      omega
    rw [Nat.min_eq_left hr] at hsize
    subst hsize
    refine ⟨hr, ?_⟩
    have hc := (Grown.refl (a := a) w₀.held).quiet_or_broken hb (hb.mono hf.size_le) hdiffer hf.heights honce hf.held
    refine hc.resolve_right ?_
    intro hbr
    rcases hbr.not_restored hs hd with hn | hn
    · exact hn ha.transfers
    · exact hn ha.keyImages

namespace Sample

def account : Account where
  watchOnly := false
  multisig := false
  keyImage key := key
  coldKeyImages _ := none
  createtime := 0
  refreshFromBlockHeight := 0
  noCoinbase := true

def scannedTx (hash : Hash) (vin : List TxIn) (out : Option (PublicKey × UInt64)) : ScannedTx where
  tx :=
    { hash, version := 2, unlockTime := 0, vin, extra := [], rctSignatures := .null, weight := 0, fee := 0
      pruned := false, vout := out.toList.map fun (key, amount) => { amount, target := .toKey key } }
  spinner := false
  oIndices := out.toList.map fun _ => 0
  passes := out.toList.map fun (key, amount) => [{ key, index := ⟨0, 0⟩, amount, out := 0 }]
  paymentId := nullHash

def scannedBlock (hash : Hash) (tx : ScannedTx) : Op :=
  .block { hash, timestamp := 0, spinner := scannedTx 0 [] none, txs := [tx] }

def genesisOnly : Hashchain := ⟨100, 0, [100]⟩

def twoReceived : List Op :=
  [scannedBlock 111 (scannedTx 11 [] (some (101, 5))), scannedBlock 112 (scannedTx 12 [] (some (102, 7)))]

def firstSpent : List Op := [scannedBlock 113 (scannedTx 13 [.toKey 0 [] 101] none)]

def firstReplaced : List Op := [scannedBlock 113 (scannedTx 13 [] (some (101, 9)))]

end Sample

open Sample

theorem imagesDiffer_account : account.ImagesDiffer := by
  intro k k' image hk hk'
  have hk₁ : k = image := Option.some.inj hk
  have hk₂ : k' = image := Option.some.inj hk'
  exact hk₁.trans hk₂.symm

/-- The spent flag is taken back. -/
theorem detach_restores_spent : ∃ w₀ w, run (State.step account) (.new genesisOnly) twoReceived = some w₀ ∧
      run (State.step account) w₀ firstSpent = some w ∧
      w.held.transfers.map (·.spent) = [true, false] ∧ Restores 3 w w₀ := by
  have hr : ((run (State.step account) (.new genesisOnly) twoReceived).bind fun w₀ =>
      (run (State.step account) w₀ firstSpent).map fun w =>
        ((w₀.blockchain.size, w.blockchain.size, w.blockchain.offset),
          w₀.held.transfers.map (·.spent), w.held.transfers.map (·.spent))) =
      some ((3, 4, 0), [false, false], [true, false]) := by decide +kernel
  obtain ⟨w₀, hb, hr⟩ := Option.bind_eq_some_iff.mp hr
  obtain ⟨w, ha, hv⟩ := Option.map_eq_some_iff.mp hr
  obtain ⟨hs, hss⟩ := Prod.mk.inj hv
  obtain ⟨hs₀, hs⟩ := Prod.mk.inj hs
  obtain ⟨hz, ho⟩ := Prod.mk.inj hs
  obtain ⟨hu, hspent⟩ := Prod.mk.inj hss
  refine ⟨w₀, w, hb, ha, hspent, ?_⟩
  refine (detach_restores imagesDiffer_account hb ha ?_ ?_).1 ⟨?_, ?_⟩
  · rw [hs₀, hz]
    rfl
  · rw [ho]
    decide
  · rw [hz]
    decide
  · refine everyStep_cons ?_ fun _ _ => everyStep_nil
    intro k td td₀ ht₀ _ _
    refine ⟨?_, Or.inl rfl⟩
    have hf : td₀.spent ∈ w₀.held.transfers.map (·.spent) := mem_map_of_mem (List.mem_of_getElem? ht₀)
    rw [hu] at hf
    simpa using hf

/-- A replaced output is lost, and with it an output of another key that comes after it. -/
theorem replaced_output_lost : ∃ w₀ w, run (State.step account) (.new genesisOnly) twoReceived = some w₀ ∧
      run (State.step account) w₀ firstReplaced = some w ∧ w₀.blockchain.size = min 3 w.blockchain.size ∧
      w.blockchain.offset < 3 ∧ w₀.held.transfers.length = 2 ∧
      (detachBlockchain 3 w).map (fun w' => (w'.held.transfers.length, w'.payments.length)) = some (0, 2) ∧
      ¬Restores 3 w w₀ := by
  have hr : ((run (State.step account) (.new genesisOnly) twoReceived).bind fun w₀ =>
      (run (State.step account) w₀ firstReplaced).map fun w =>
        ((w₀.blockchain.size, w.blockchain.size, w.blockchain.offset), w₀.held.transfers.length,
          (detachBlockchain 3 w).map fun w' => (w'.held.transfers.length, w'.payments.length))) =
      some ((3, 4, 0), 2, some (0, 2)) := by decide +kernel
  obtain ⟨w₀, hb, hr⟩ := Option.bind_eq_some_iff.mp hr
  obtain ⟨w, ha, hv⟩ := Option.map_eq_some_iff.mp hr
  obtain ⟨hs, hl⟩ := Prod.mk.inj hv
  obtain ⟨hs₀, hs⟩ := Prod.mk.inj hs
  obtain ⟨hz, ho⟩ := Prod.mk.inj hs
  obtain ⟨hh, hd⟩ := Prod.mk.inj hl
  refine ⟨w₀, w, hb, ha, ?_, ?_, hh, hd, ?_⟩
  · rw [hs₀, hz]
    rfl
  · rw [ho]
    decide
  · rintro ⟨w', hde, hsa⟩
    rw [hde] at hd
    have hn := (Prod.mk.inj (Option.some.inj hd)).1
    have hl := congrArg List.length hsa.transfers
    rw [length_map, length_map] at hl
    omega

end Gyro.Wallet.Refresh
