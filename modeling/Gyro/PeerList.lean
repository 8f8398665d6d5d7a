import Gyro.Lib.AgedTable
import Gyro.Lib.Runs

/-!
# The lists of known peers

`peerlist_manager` of `p2p/net_peerlist.h`: the white list of peers reached and the gray
list of those heard of drop the entry seen longest ago when they outgrow their limit.
-/

namespace Gyro.PeerList

open Keyed Runs AgedTable List

structure Hosts (A : Type) where
  isLoopback : A → Bool
  isLocal : A → Bool
  allowLocalIp : Bool

structure Entry (A : Type) where
  adr : A
  id : UInt64
  lastSeen : Int
  pruningSeed : UInt32
  rpcPort : UInt16
  rpcCreditsPerHash : UInt32
  deriving DecidableEq

structure Manager (A : Type) where
  white : List (Entry A)
  gray : List (Entry A)

def whitePeerlistLimit : Nat := 1000

def grayPeerlistLimit : Nat := 5000

section
variable {A : Type} [DecidableEq A] (hosts : Hosts A)

def isHostAllowed (address : A) : Bool :=
  if hosts.isLoopback address then false
  else if !hosts.allowLocalIp && hosts.isLocal address then false
  else true

/-- Fields that older nodes do not pass on are kept, and the time of an incoming list is not
trusted. -/
def Entry.update (old ple : Entry A) : Entry A :=
  { ple with
    pruningSeed := if old.pruningSeed ≠ 0 ∧ ple.pruningSeed = 0 then old.pruningSeed else ple.pruningSeed
    rpcPort := if old.rpcPort ≠ 0 ∧ ple.rpcPort = 0 then old.rpcPort else ple.rpcPort
    lastSeen := old.lastSeen }

def appendWithPeerWhite (m : Manager A) (ple : Entry A) : Manager A :=
  if isHostAllowed hosts ple.adr then
    { white := upsert Entry.adr Entry.lastSeen Entry.update whitePeerlistLimit ple m.white
      gray := without Entry.adr m.gray ple.adr }
  else m

def appendWithPeerGray (m : Manager A) (ple : Entry A) : Manager A :=
  if isHostAllowed hosts ple.adr then
    match find Entry.adr m.white ple.adr with
    | some _ => m
    | none =>
      { m with gray := upsert Entry.adr Entry.lastSeen Entry.update grayPeerlistLimit ple m.gray }
  else m

def appendEach (f : Option (Entry A → Bool)) : Manager A → List (Entry A) → Manager A
  | m, [] => m
  | m, be :: rest => appendEach f (if f.all fun f => f be then appendWithPeerGray hosts m be else m) rest

def mergePeerlist (m : Manager A) (outerBs : List (Entry A)) (f : Option (Entry A → Bool)) : Manager A :=
  let merged := appendEach hosts f m outerBs
  { merged with gray := trim grayPeerlistLimit merged.gray }

def setPeerJustSeen (m : Manager A) (peer : UInt64) (addr : A) (pruningSeed : UInt32) (rpcPort : UInt16)
    (rpcCreditsPerHash : UInt32) (now : Int) : Manager A :=
  appendWithPeerWhite hosts m
    { adr := addr
      id := peer
      lastSeen := now
      pruningSeed := pruningSeed
      rpcPort := rpcPort
      rpcCreditsPerHash := rpcCreditsPerHash }

def removeFromPeerWhite (m : Manager A) (pe : Entry A) : Manager A :=
  { m with white := without Entry.adr m.white pe.adr }

def removeFromPeerGray (m : Manager A) (pe : Entry A) : Manager A :=
  { m with gray := without Entry.adr m.gray pe.adr }

inductive Op (A : Type) where
  | merge (outerBs : List (Entry A)) (f : Option (Entry A → Bool))
  | justSeen (peer : UInt64) (addr : A) (pruningSeed : UInt32) (rpcPort : UInt16) (rpcCreditsPerHash : UInt32)
      (now : Int)
  | appendWhite (ple : Entry A)
  | appendGray (ple : Entry A)
  | removeWhite (pe : Entry A)
  | removeGray (pe : Entry A)

def Manager.step (m : Manager A) : Op A → Manager A
  | .merge outerBs f => mergePeerlist hosts m outerBs f
  | .justSeen peer addr pruningSeed rpcPort rpcCreditsPerHash now =>
    setPeerJustSeen hosts m peer addr pruningSeed rpcPort rpcCreditsPerHash now
  | .appendWhite ple => appendWithPeerWhite hosts m ple
  | .appendGray ple => appendWithPeerGray hosts m ple
  | .removeWhite pe => removeFromPeerWhite m pe
  | .removeGray pe => removeFromPeerGray m pe

/-- The lists and when each peer was seen: at its latest `set_peer_just_seen`, or the time it came
with. -/
structure Watched (A : Type) where
  lists : Manager A
  seen : A → Option Int

def Watched.new : Watched A := ⟨⟨[], []⟩, fun _ => none⟩

def Watched.see (s : Watched A) : Op A → A → Option Int
  | .justSeen _ addr _ _ _ now => if isHostAllowed hosts addr then Function.update s.seen addr (some now) else s.seen
  | .appendWhite ple =>
    if isHostAllowed hosts ple.adr && (find Entry.adr s.lists.white ple.adr).isNone then
      Function.update s.seen ple.adr (some ple.lastSeen)
    else s.seen
  | _ => s.seen

def Watched.step (s : Watched A) (op : Op A) : Option (Watched A) :=
  some { lists := s.lists.step hosts op, seen := s.see hosts op }

omit [DecidableEq A] in
theorem merges_update : Merges (Entry.adr (A := A)) Entry.lastSeen Entry.update := ⟨fun _ _ => rfl, fun _ _ => rfl⟩

omit [DecidableEq A] in
theorem not_loopback_of_allowed {a : A} (h : isHostAllowed hosts a = true) : hosts.isLoopback a = false := by
  unfold isHostAllowed at h
  split at h
  · cases h
  · next hl => exact Bool.eq_false_iff.mpr hl

structure Consistent (m : Manager A) : Prop where
  white : Aged Entry.adr Entry.lastSeen whitePeerlistLimit m.white
  gray : Aged Entry.adr Entry.lastSeen grayPeerlistLimit m.gray
  apart : ∀ x ∈ m.white, ∀ y ∈ m.gray, x.adr ≠ y.adr
  allowed : ∀ e, e ∈ m.white ∨ e ∈ m.gray → isHostAllowed hosts e.adr = true

variable {hosts} {m : Manager A} {ple e y z : Entry A} {s t : Watched A} {a : A} {op : Op A}

omit [DecidableEq A] in
theorem consistent_empty : Consistent hosts (⟨[], []⟩ : Manager A) where
  white := aged_nil
  gray := aged_nil
  apart := nofun
  allowed := nofun

theorem adr_of_mem_upsert {limit : Nat} {xs : List (Entry A)}
    (hz : z ∈ upsert Entry.adr Entry.lastSeen Entry.update limit ple xs) : z.adr = ple.adr ∨ z ∈ xs := by
  rcases mem_upsert merges_update hz with ⟨rfl, -⟩ | ⟨y, -, rfl⟩ | ⟨hold, -⟩
  · exact Or.inl rfl
  · exact Or.inl rfl
  · exact Or.inr hold

theorem appendWithPeerWhite_of_allowed (h : isHostAllowed hosts ple.adr = true) : appendWithPeerWhite hosts m ple =
      { white := upsert Entry.adr Entry.lastSeen Entry.update whitePeerlistLimit ple m.white
        gray := without Entry.adr m.gray ple.adr } := if_pos h

theorem Consistent.appendWhite (h : Consistent hosts m) : Consistent hosts (appendWithPeerWhite hosts m ple) := by
  by_cases ha : isHostAllowed hosts ple.adr = true
  · rw [appendWithPeerWhite_of_allowed ha]
    constructor
    · exact h.white.upsert merges_update
    · exact h.gray.without ple.adr
    · intro x hx y hy
      obtain ⟨hy, hn⟩ := mem_without.mp hy
      rcases adr_of_mem_upsert hx with heq | hold
      · rw [heq]
        exact hn.symm
      · exact h.apart x hold y hy
    · rintro e (he | he)
      · rcases adr_of_mem_upsert he with heq | hold
        · rw [heq]
          exact ha
        · exact h.allowed e (Or.inl hold)
      · exact h.allowed e (Or.inr (mem_without.mp he).1)
  · unfold appendWithPeerWhite
    rw [if_neg ha]
    exact h

theorem appendWithPeerGray_cases (hosts : Hosts A) (m : Manager A) (ple : Entry A) :
    appendWithPeerGray hosts m ple = m ∨ (isHostAllowed hosts ple.adr = true ∧ ple.adr ∉ m.white.map Entry.adr ∧
      appendWithPeerGray hosts m ple =
        { m with gray := upsert Entry.adr Entry.lastSeen Entry.update grayPeerlistLimit ple m.gray }) := by
  unfold appendWithPeerGray
  split
  · next ha =>
    cases hf : find Entry.adr m.white ple.adr with
    | some _ => exact Or.inl rfl
    | none => exact Or.inr ⟨ha, find_eq_none_iff.mp hf, rfl⟩
  · exact Or.inl rfl

theorem Consistent.appendGray (h : Consistent hosts m) : Consistent hosts (appendWithPeerGray hosts m ple) := by
  rcases appendWithPeerGray_cases hosts m ple with heq | ⟨hl, hn, heq⟩
  · rw [heq]
    exact h
  · rw [heq]
    constructor
    · exact h.white
    · exact h.gray.upsert merges_update
    · intro x hx y hy
      rcases adr_of_mem_upsert hy with ha | hold
      · rw [ha]
        rintro hp
        exact hn (hp ▸ mem_map_of_mem hx)
      · exact h.apart x hx y hold
    · rintro e (he | he)
      · exact h.allowed e (Or.inl he)
      · rcases adr_of_mem_upsert he with ha | hold
        · rw [ha]
          exact hl
        · exact h.allowed e (Or.inr hold)

theorem Consistent.appendEach {f : Option (Entry A → Bool)} {outerBs : List (Entry A)} (h : Consistent hosts m) :
    Consistent hosts (appendEach hosts f m outerBs) := by
  induction outerBs generalizing m with
  | nil => exact h
  | cons be rest ih =>
    apply ih
    split
    · exact h.appendGray
    · exact h

variable {f : Option (Entry A → Bool)}

theorem Consistent.mergePeerlist_eq {outerBs : List (Entry A)}
    (h : Consistent hosts m) : mergePeerlist hosts m outerBs f = PeerList.appendEach hosts f m outerBs := by
  have ht := trim_of_length_le (@Consistent.appendEach _ _ _ _ f outerBs h).gray.bounded
  dsimp only [mergePeerlist]
  rw [ht]

omit [DecidableEq A] in
theorem Consistent.sub {m' : Manager A} (h : Consistent hosts m)
    (hh : Aged Entry.adr Entry.lastSeen whitePeerlistLimit m'.white)
    (hr : Aged Entry.adr Entry.lastSeen grayPeerlistLimit m'.gray) (hw : ∀ e ∈ m'.white, e ∈ m.white)
    (hg : ∀ e ∈ m'.gray, e ∈ m.gray) : Consistent hosts m' where
  white := hh
  gray := hr
  apart := fun x hx y hy => h.apart x (hw x hx) y (hg y hy)
  allowed := fun e he => h.allowed e (he.imp (hw e) (hg e))

theorem Consistent.step (h : Consistent hosts m) (op : Op A) : Consistent hosts (m.step hosts op) := by
  cases op with
  | merge outerBs f =>
    show Consistent hosts (mergePeerlist hosts m outerBs f)
    rw [h.mergePeerlist_eq]
    exact h.appendEach
  | justSeen peer addr pruningSeed rpcPort rpcCreditsPerHash now => exact h.appendWhite
  | appendWhite ple => exact h.appendWhite
  | appendGray ple => exact h.appendGray
  | removeWhite pe => exact h.sub (h.white.without pe.adr) h.gray (fun e he => (mem_without.mp he).1) (fun e he => he)
  | removeGray pe => exact h.sub h.white (h.gray.without pe.adr) (fun e he => he) (fun e he => (mem_without.mp he).1)

def Recordable (m : Manager A) (addr : A) (now : Int) : Prop :=
  match find Entry.adr m.white addr with
  | none => m.white.length < whitePeerlistLimit ∨ ∃ e ∈ m.white, e.lastSeen ≤ now
  | some e => e.lastSeen = now

def SeenAt (m : Manager A) (addr : A) (now : Int) : Prop :=
  ∃ e, find Entry.adr m.white addr = some e ∧ e.lastSeen = now

theorem Consistent.seenAt_appendWhite (h : Consistent hosts m) (hl : isHostAllowed hosts ple.adr = true) :
    SeenAt (appendWithPeerWhite hosts m ple) ple.adr ple.lastSeen ↔ Recordable m ple.adr ple.lastSeen := by
  have haf : (appendWithPeerWhite hosts m ple).white =
      upsert Entry.adr Entry.lastSeen Entry.update whitePeerlistLimit ple m.white := by
    rw [appendWithPeerWhite_of_allowed hl]
  have ha := h.white.upsert (x := ple) merges_update
  unfold SeenAt Recordable
  rw [haf]
  cases hf : find Entry.adr m.white ple.adr with
  | none =>
    have hn : ple ∉ m.white := fun hme => find_eq_none_iff.mp hf (mem_map_of_mem hme)
    have hu : upsert Entry.adr Entry.lastSeen Entry.update whitePeerlistLimit ple m.white = _ :=
      upsert_new hf
    rw [← h.white.mem_insert_iff hn, ← hu]
    constructor
    · rintro ⟨e, he, -⟩
      obtain ⟨hme, hd⟩ := find_some_mem he
      rcases mem_upsert merges_update hme with ⟨rfl, -⟩ | ⟨y, hy, -⟩ | ⟨-, hne⟩
      · exact hme
      · rw [hf] at hy
        cases hy
      · exact absurd hd hne
    · intro hme
      exact ⟨ple, (find_eq_some_iff ha.keys).mpr ⟨hme, rfl⟩, rfl⟩
  | some y =>
    have hme : y.update ple ∈ upsert Entry.adr Entry.lastSeen Entry.update whitePeerlistLimit ple m.white := by
      rw [upsert_old hf]
      exact (mem_replace (merges_update.find hf)).mpr (Or.inl rfl)
    have hf' := (find_eq_some_iff ha.keys).mpr ⟨hme, rfl⟩
    constructor
    · rintro ⟨e, he, ht⟩
      rw [← ht, ← Option.some.inj (hf'.symm.trans he)]
      rfl
    · intro ht
      exact ⟨_, hf', ht⟩

def Recorded (hosts : Hosts A) (s : Watched A) : Op A → Prop
  | .justSeen _ addr _ _ _ now => isHostAllowed hosts addr = true → Recordable s.lists addr now
  | _ => True

def Timed (m : Manager A) (seen : A → Option Int) : Prop := ∀ e ∈ m.white, seen e.adr = some e.lastSeen

/-- How a call that appends to the white list may change the record of times. -/
structure Notes (m : Manager A) (ple : Entry A) (seen seen' : A → Option Int) : Prop where
  others : ∀ a, a ≠ ple.adr → seen' a = seen a
  new : find Entry.adr m.white ple.adr = none → seen' ple.adr = some ple.lastSeen
  old : ∀ y, find Entry.adr m.white ple.adr = some y → seen' ple.adr = some y.lastSeen

variable {seen seen' : A → Option Int}

theorem Notes.timed (hn : Notes m ple seen seen') (h : Timed m seen)
    (ha : isHostAllowed hosts ple.adr = true) : Timed (appendWithPeerWhite hosts m ple) seen' := by
  rw [appendWithPeerWhite_of_allowed ha]
  intro e he
  rcases mem_upsert merges_update he with ⟨rfl, hf⟩ | ⟨y, hf, rfl⟩ | ⟨hold, hne⟩
  · exact hn.new hf
  · exact hn.old y hf
  · rw [hn.others _ hne]
    exact h e hold

def NoLater (x y : Option Int) : Prop := ∀ t u, x = some t → y = some u → t ≤ u

def WhiteLaw (m after : Manager A) (offered : List A) (seen' : A → Option Int) : Prop :=
  ∀ a, a ∈ offered ∨ a ∈ m.white.map Entry.adr → a ∉ after.white.map Entry.adr →
    ∀ z ∈ after.white, NoLater (seen' a) (seen' z.adr)

def GrayLaw (m after : Manager A) (offered : List (Entry A)) : Prop :=
  ∀ y, y ∈ offered ∨ y ∈ m.gray → y.adr ∉ after.gray.map Entry.adr → ∀ z ∈ after.gray, y.lastSeen ≤ z.lastSeen

def GrayAppendLaw (hosts : Hosts A) (m : Manager A) (ple : Entry A) : Prop :=
  GrayLaw m (appendWithPeerGray hosts m ple)
    (if isHostAllowed hosts ple.adr && (find Entry.adr m.white ple.adr).isNone then [ple] else [])

/-- Each trim, and a merge for the list it began with, drops the peers seen longest ago. -/
def EvictsOldest (hosts : Hosts A) (s : Watched A) (op : Op A) : Prop :=
  match op with
  | .justSeen _ addr _ _ _ _ =>
    WhiteLaw s.lists (s.lists.step hosts op) (if isHostAllowed hosts addr then [addr] else []) (s.see hosts op)
  | .appendWhite ple =>
    WhiteLaw s.lists (s.lists.step hosts op) (if isHostAllowed hosts ple.adr then [ple.adr] else [])
      (s.see hosts op)
  | .appendGray ple => GrayAppendLaw hosts s.lists ple
  | .merge outerBs f =>
    GrayLaw s.lists (s.lists.step hosts op) [] ∧
      ∀ pre be post, outerBs = pre ++ be :: post → GrayAppendLaw hosts (appendEach hosts f s.lists pre) be
  | .removeWhite _ => True
  | .removeGray _ => True

omit [DecidableEq A] in
theorem whiteLaw_refl {seen : A → Option Int} : WhiteLaw m m [] seen := by
  rintro a (ho | hme) hg
  · cases ho
  · exact absurd hme hg

omit [DecidableEq A] in
theorem grayLaw_refl : GrayLaw m m [] := by
  rintro y (ho | hme) hg
  · cases ho
  · exact absurd (mem_map_of_mem hme) hg

theorem Consistent.whiteLaw (h : Consistent hosts m) (ht : Timed m seen)
    (hn : Notes m ple seen seen') (hl : isHostAllowed hosts ple.adr = true) :
    WhiteLaw m (appendWithPeerWhite hosts m ple) [ple.adr] seen' := by
  have ht' := hn.timed ht hl
  intro a ha hg z hz t u hat hzu
  -- the entry that stood for the peer when the list was trimmed
  obtain ⟨y, hy, rfl, hs⟩ : ∃ y, (y = ple ∨ y ∈ m.white) ∧ y.adr = a ∧ seen' a = some y.lastSeen := by
    have hk : ∀ y ∈ m.white, seen' y.adr = some y.lastSeen := by
      intro y hy
      by_cases hd : y.adr = ple.adr
      · rw [hd]
        exact hn.old y ((find_eq_some_iff h.white.keys).mpr ⟨hy, hd⟩)
      · rw [hn.others _ hd]
        exact ht y hy
    rcases ha with ha | ha
    · rw [mem_singleton.mp ha]
      cases hf : find Entry.adr m.white ple.adr with
      | none => exact ⟨ple, Or.inl rfl, rfl, hn.new hf⟩
      | some y =>
        obtain ⟨hy, hd⟩ := find_some_mem hf
        exact ⟨y, Or.inr hy, hd, hn.old y hf⟩
    · obtain ⟨y, hy, rfl⟩ := mem_map.mp ha
      exact ⟨y, Or.inr hy, rfl, hk y hy⟩
  have hu : t = y.lastSeen ∧ u = z.lastSeen :=
    ⟨Option.some.inj (hat.symm.trans hs), Option.some.inj (hzu.symm.trans (ht' z hz))⟩
  rw [appendWithPeerWhite_of_allowed hl] at hg hz
  rcases h.white.kept_or_floor merges_update hy with ⟨w, hw, hd, -⟩ | hfl
  · exact absurd (hd ▸ mem_map_of_mem hw) hg
  · rw [hu.1, hu.2]
    exact hfl.least z hz

theorem Consistent.grayAppendLaw (h : Consistent hosts m) (ple : Entry A) : GrayAppendLaw hosts m ple := by
  unfold GrayAppendLaw
  split
  · next ho =>
    rw [Bool.and_eq_true, Option.isNone_iff_eq_none] at ho
    have ha : appendWithPeerGray hosts m ple =
        { m with gray := upsert Entry.adr Entry.lastSeen Entry.update grayPeerlistLimit ple m.gray } := by
      unfold appendWithPeerGray
      rw [if_pos ho.1, ho.2]
    rw [ha]
    intro y hy hg z hz
    rcases h.gray.kept_or_floor merges_update (hy.imp_left mem_singleton.mp) with ⟨w, hw, hd, -⟩ | hf
    · exact absurd (hd ▸ mem_map_of_mem hw) hg
    · exact hf.least z hz
  · next ho =>
    rcases appendWithPeerGray_cases hosts m ple with heq | ⟨hl, hn, -⟩
    · rw [heq]
      exact grayLaw_refl
    · rw [hl, find_eq_none_iff.mpr hn] at ho
      exact absurd rfl ho

theorem Consistent.floor_appendEach {time : Int} (outerBs : List (Entry A))
    (h : Consistent hosts m) (hf : Floor Entry.lastSeen grayPeerlistLimit time m.gray) :
    Floor Entry.lastSeen grayPeerlistLimit time (PeerList.appendEach hosts f m outerBs).gray := by
  induction outerBs generalizing m with
  | nil => exact hf
  | cons be rest ih =>
    unfold PeerList.appendEach
    split
    · apply ih h.appendGray
      rcases appendWithPeerGray_cases hosts m be with heq | ⟨-, -, heq⟩
      · rw [heq]
        exact hf
      · rw [heq]
        exact hf.upsert merges_update h.gray
    · exact ih h hf

theorem Consistent.kept_or_floor_appendEach (outerBs : List (Entry A)) (h : Consistent hosts m) (hy : y ∈ m.gray) :
    (∃ z ∈ (PeerList.appendEach hosts f m outerBs).gray, z.adr = y.adr) ∨
      Floor Entry.lastSeen grayPeerlistLimit y.lastSeen (PeerList.appendEach hosts f m outerBs).gray := by
  induction outerBs generalizing m y with
  | nil => exact Or.inl ⟨y, hy, rfl⟩
  | cons be rest ih =>
    unfold PeerList.appendEach
    split
    · rcases appendWithPeerGray_cases hosts m be with heq | ⟨-, -, heq⟩
      · rw [heq]
        exact ih h hy
      · rcases h.gray.kept_or_floor (x := be) merges_update (Or.inr hy) with ⟨w, hw, ha, ht⟩ | hf
        · have hw' : w ∈ (appendWithPeerGray hosts m be).gray := by
            rw [heq]
            exact hw
          rw [← ha, ← ht hy]
          exact ih h.appendGray hw'
        · apply Or.inr
          apply h.appendGray.floor_appendEach
          rw [heq]
          exact hf
    · exact ih h hy

theorem Consistent.grayLaw_merge (h : Consistent hosts m) (outerBs : List (Entry A)) (f : Option (Entry A → Bool)) :
    GrayLaw m (mergePeerlist hosts m outerBs f) [] := by
  rw [h.mergePeerlist_eq]
  rintro y (ho | hy) hg z hz
  · cases ho
  · rcases h.kept_or_floor_appendEach outerBs hy with ⟨w, hw, ha⟩ | hf
    · exact absurd (ha ▸ mem_map_of_mem hw) hg
    · exact hf.least z hz

theorem notes_justSeen {addr : A} {peer : UInt64} {pruningSeed rpcCreditsPerHash : UInt32} {rpcPort : UInt16}
    {now : Int} (ha : isHostAllowed hosts addr = true) (hr : Recordable s.lists addr now) :
    Notes s.lists ⟨addr, peer, now, pruningSeed, rpcPort, rpcCreditsPerHash⟩ s.seen
      (s.see hosts (.justSeen peer addr pruningSeed rpcPort rpcCreditsPerHash now)) := by
  have hs : s.see hosts (.justSeen peer addr pruningSeed rpcPort rpcCreditsPerHash now) =
      Function.update s.seen addr (some now) := if_pos ha
  rw [hs]
  constructor
  · intro a hn
    exact Function.update_of_ne hn _ _
  · intro _
    exact Function.update_self addr _ _
  · intro y hf
    unfold Recordable at hr
    rw [hf] at hr
    rw [Function.update_self, hr]

theorem notes_appendWhite (ht : Timed s.lists s.seen) (ha : isHostAllowed hosts ple.adr = true) :
    Notes s.lists ple s.seen (s.see hosts (.appendWhite ple)) := by
  cases hf : find Entry.adr s.lists.white ple.adr with
  | none =>
    have hs : s.see hosts (.appendWhite ple) = Function.update s.seen ple.adr (some ple.lastSeen) :=
      if_pos (by rw [ha, hf]; rfl)
    rw [hs]
    constructor
    · intro a hne
      exact Function.update_of_ne hne _ _
    · intro _
      exact Function.update_self ple.adr _ _
    · intro y hy
      rw [hf] at hy
      cases hy
  | some old =>
    have hs : s.see hosts (.appendWhite ple) = s.seen := if_neg (by rw [ha, hf]; exact Bool.false_ne_true)
    rw [hs]
    constructor
    · intro a _
      rfl
    · intro hn
      rw [hf] at hn
      cases hn
    · intro y hy
      obtain ⟨hme, hd⟩ := find_some_mem hy
      rw [← hd]
      exact ht y hme

theorem white_appendWithPeerGray : (appendWithPeerGray hosts m ple).white = m.white := by
  rcases appendWithPeerGray_cases hosts m ple with heq | ⟨-, -, heq⟩ <;> rw [heq]

theorem white_appendEach (outerBs : List (Entry A)) : (appendEach hosts f m outerBs).white = m.white := by
  induction outerBs generalizing m with
  | nil => rfl
  | cons be rest ih =>
    unfold appendEach
    rw [ih]
    split
    · exact white_appendWithPeerGray
    · rfl

theorem Consistent.whiteCall {seen' : A → Option Int} (h : Consistent hosts s.lists)
    (ht : Timed s.lists s.seen) (ple : Entry A) (hs : isHostAllowed hosts ple.adr = false → seen' = s.seen)
    (hn : isHostAllowed hosts ple.adr = true → Notes s.lists ple s.seen seen') :
    WhiteLaw s.lists (appendWithPeerWhite hosts s.lists ple)
        (if isHostAllowed hosts ple.adr then [ple.adr] else []) seen' ∧
      Timed (appendWithPeerWhite hosts s.lists ple) seen' := by
  cases ha : isHostAllowed hosts ple.adr with
  | true =>
    exact ⟨h.whiteLaw ht (hn ha) ha, (hn ha).timed ht ha⟩
  | false =>
    have hsa : appendWithPeerWhite hosts s.lists ple = s.lists := if_neg (Bool.eq_false_iff.mp ha)
    rw [hsa, hs ha]
    exact ⟨whiteLaw_refl, ht⟩

theorem Consistent.call (h : Consistent hosts s.lists) (ht : Timed s.lists s.seen) (hr : Recorded hosts s op) :
    EvictsOldest hosts s op ∧ Timed (s.lists.step hosts op) (s.see hosts op) := by
  cases op with
  | merge outerBs f =>
    refine ⟨⟨h.grayLaw_merge outerBs f, ?_⟩, ?_⟩
    · intro pre be post _
      exact h.appendEach.grayAppendLaw be
    · intro e he
      rw [Manager.step, h.mergePeerlist_eq, white_appendEach] at he
      exact ht e he
  | justSeen peer addr pruningSeed rpcPort rpcCreditsPerHash now =>
    refine h.whiteCall ht ⟨addr, peer, now, pruningSeed, rpcPort, rpcCreditsPerHash⟩ ?_ ?_
    · intro hs
      exact if_neg (Bool.eq_false_iff.mp hs)
    · intro ha
      exact notes_justSeen ha (hr ha)
  | appendWhite ple =>
    refine h.whiteCall ht ple ?_ ?_
    · intro hs
      exact if_neg (by rw [hs]; exact Bool.false_ne_true)
    · intro ha
      exact notes_appendWhite ht ha
  | appendGray ple =>
    refine ⟨h.grayAppendLaw ple, ?_⟩
    intro e he
    rw [Manager.step, white_appendWithPeerGray] at he
    exact ht e he
  | removeWhite pe =>
    refine ⟨trivial, ?_⟩
    intro e he
    exact ht e (mem_without.mp he).1
  | removeGray pe => exact ⟨trivial, ht⟩

theorem consistent_of_run {ops : List (Op A)} (hr : run (Watched.step hosts) Watched.new ops = some s) :
    Consistent hosts s.lists := by
  refine run_preserves (I := fun s => Consistent hosts s.lists) ?_ consistent_empty hr
  intro s op t h hs
  cases hs
  exact h.step op

theorem timed_of_run {ops : List (Op A)} (hv : EveryStep (Watched.step hosts) (Recorded hosts) Watched.new ops)
    (hr : run (Watched.step hosts) Watched.new ops = some s) : Timed s.lists s.seen := by
  have hb : Consistent hosts s.lists ∧ Timed s.lists s.seen := by
    refine run_invariant (I := fun s => Consistent hosts s.lists ∧ Timed s.lists s.seen) ?_ ?_ hv hr
    · intro s op t h hre hs
      cases hs
      exact ⟨h.1.step op, (h.1.call h.2 hre).2⟩
    · exact ⟨consistent_empty, nofun⟩
  exact hb.2

/-- The lists stay apart, bounded and free of loopback addresses. A call of `set_peer_just_seen`
leaves its time exactly when it is recordable, and then trimming drops the oldest. -/
theorem peer_lists_consistent (hosts : Hosts A) (ops : List (Op A)) (s : Watched A)
    (hrun : run (Watched.step hosts) Watched.new ops = some s) :
    ((∀ a ∈ s.lists.white.map Entry.adr, a ∉ s.lists.gray.map Entry.adr) ∧
      s.lists.white.length ≤ whitePeerlistLimit ∧ s.lists.gray.length ≤ grayPeerlistLimit ∧
      ∀ e, e ∈ s.lists.white ∨ e ∈ s.lists.gray → hosts.isLoopback e.adr = false) ∧
    (∀ peer addr pruningSeed rpcPort rpcCreditsPerHash now, isHostAllowed hosts addr = true →
      (SeenAt (setPeerJustSeen hosts s.lists peer addr pruningSeed rpcPort rpcCreditsPerHash now) addr now ↔
        Recordable s.lists addr now)) ∧ (EveryStep (Watched.step hosts) (Recorded hosts) Watched.new ops →
      ∀ op, Recorded hosts s op → EvictsOldest hosts s op) := by
  have h := consistent_of_run hrun
  refine ⟨⟨?_, h.white.bounded, h.gray.bounded, ?_⟩, ?_, ?_⟩
  · intro a hh hg
    obtain ⟨x, hx, rfl⟩ := mem_map.mp hh
    obtain ⟨y, hy, ha⟩ := mem_map.mp hg
    exact h.apart x hx y hy ha.symm
  · intro e he
    exact not_loopback_of_allowed hosts (h.allowed e he)
  · intro peer addr pruningSeed rpcPort rpcCreditsPerHash now hl
    exact h.seenAt_appendWhite hl
  · intro hv op hr
    exact (h.call (timed_of_run hv hrun) hr).1

end

namespace Sample

def hosts : Hosts Nat where
  isLoopback := (· == 0)
  isLocal := fun _ => false
  allowLocalIp := false

def calls : List (Op Nat) :=
  [.justSeen 7 1 0 0 0 10, .merge [⟨2, 8, 5, 0, 0, 0⟩, ⟨0, 9, 6, 0, 0, 0⟩, ⟨1, 7, 99, 384, 0, 0⟩] none,
    .justSeen 8 2 0 0 0 11]

end Sample

open Sample in
theorem peer_lists_consistent_two_reached :
    ∃ s, run (Watched.step hosts) Watched.new calls = some s ∧ s.lists.white.map Entry.adr = [1, 2] ∧
      s.lists.gray = [] ∧ Recordable s.lists 3 12 ∧ SeenAt (setPeerJustSeen hosts s.lists 9 3 0 0 0 12) 3 12 ∧
      EvictsOldest hosts s (.justSeen 9 3 0 0 0 12) := by
  refine ⟨_, rfl, rfl, rfl, Or.inl (by decide +kernel), ?_, ?_⟩
  · apply ((peer_lists_consistent hosts calls _ rfl).2.1 9 3 0 0 0 12 rfl).mpr
    exact Or.inl (by decide +kernel)
  · apply (peer_lists_consistent hosts calls _ rfl).2.2
    · refine everyStep_cons (fun _ => Or.inl (by decide +kernel)) ?_
      rintro _ ⟨⟩
      refine everyStep_cons trivial ?_
      rintro _ ⟨⟩
      refine everyStep_cons (fun _ => Or.inl (by decide +kernel)) ?_
      rintro _ ⟨⟩
      exact everyStep_nil
    · intro _
      exact Or.inl (by decide +kernel)

open Sample in
/-- A peer seen again a second later keeps the time it was seen first. -/
theorem seen_again_keeps_first_time : isHostAllowed hosts 1 = true ∧
      ∃ s, run (Watched.step hosts) Watched.new [.justSeen 7 1 0 0 0 10] = some s ∧
        (find Entry.adr (setPeerJustSeen hosts s.lists 7 1 0 0 0 11).white 1).map Entry.lastSeen = some 10 ∧
        ¬ SeenAt (setPeerJustSeen hosts s.lists 7 1 0 0 0 11) 1 11 := by
  refine ⟨rfl, _, rfl, rfl, ?_⟩
  rintro ⟨e, he, ht⟩
  have hold : find Entry.adr (setPeerJustSeen hosts ⟨[⟨1, 7, 10, 0, 0, 0⟩], []⟩ 7 1 0 0 0 11).white 1 =
      some ⟨1, 7, 10, 0, 0, 0⟩ := by decide +kernel
  have heq : some ⟨1, 7, 10, 0, 0, 0⟩ = some e := hold.symm.trans he
  cases heq
  exact absurd ht (by decide)

end Gyro.PeerList
