import Gyro.Lib.Runs
import Mathlib.Data.UInt

/-!
# Group membership of a zyre node

`server::run` (`zyre.cpp`) counts the clients of each group. On `LEAVE` a count of 1 erases
the entry, which is read once more after that.
-/

namespace Gyro.Zyre

open Runs List

inductive RequestKind where
  | join
  | leave
  deriving DecidableEq

structure Request where
  client : Nat
  kind : RequestKind
  group : String
  deriving DecidableEq

/-- The counts, the groups the node is in, and how often an erased entry was used. -/
structure Server where
  groups : String → Option UInt64
  member : String → Bool
  erasedUses : Nat

namespace Server

def start (configured : List String) : Server where
  groups g := if g ∈ configured then some 0 else none
  member g := g ∈ configured
  erasedUses := 0

def setEntry (s : Server) (g : String) (n : Option UInt64) : Server :=
  { s with groups := fun x => if x = g then n else s.groups x }

def setMember (s : Server) (g : String) (b : Bool) : Server :=
  { s with member := fun x => if x = g then b else s.member x }

def serve (s : Server) (r : Request) : Server :=
  match r.kind with
  | .join =>
    match s.groups r.group with
    | none => (s.setEntry r.group (some 1)).setMember r.group true
    | some n => s.setEntry r.group (some (n + 1))
  | .leave =>
    match s.groups r.group with
    | none => s
    | some n =>
      -- The second comparison is made even where the first has erased the entry.
      if n = 1 then
        { (s.setEntry r.group none).setMember r.group false with erasedUses := s.erasedUses + 1 }
      else if n > 1 then s.setEntry r.group (some (n - 1))
      else s

end Server

structure Node where
  server : Server
  served : List Request

def Node.start (configured : List String) : Node := ⟨.start configured, []⟩

def Node.step (s : Node) (r : Request) : Option Node := some ⟨s.server.serve r, s.served ++ [r]⟩

def requests (rs : List Request) (kind : RequestKind) (g : String) : Nat :=
  rs.countP fun r => r.kind = kind ∧ r.group = g

def held (rs : List Request) : List (Nat × String) :=
  rs.foldl (fun h r => match r.kind with
    | .join => (r.client, r.group) :: h
    | .leave => h.erase (r.client, r.group)) []

def OnlyJoined (s : Node) (r : Request) : Prop := r.kind = .leave → (r.client, r.group) ∈ held s.served

/-- A member of the configured groups and of those with more joins than leaves; no erased entry
used. -/
structure Counted (configured : List String) (s : Node) : Prop where
  member : ∀ g, s.server.member g = true ↔
    g ∈ configured ∨ requests s.served .leave g < requests s.served .join g
  intact : s.server.erasedUses = 0

def Shared (s : Node) (r : Request) : Prop := r.kind = .leave → ∃ n, s.server.groups r.group = some n ∧ 1 < n

section
variable {configured : List String} {s t : Node} {r : Request} {rs : List Request} {kind : RequestKind} {g : String}

theorem requests_append : requests (rs ++ [r]) kind g =
    requests rs kind g + if r.kind = kind ∧ r.group = g then 1 else 0 := by
  simp [requests, countP_append, countP_singleton]

theorem held_append_join (h : r.kind = .join) : held (rs ++ [r]) = (r.client, r.group) :: held rs := by
  simp [held, foldl_append, h]

theorem held_append_leave (h : r.kind = .leave) : held (rs ++ [r]) = (held rs).erase (r.client, r.group) := by
  simp [held, foldl_append, h]

/-- What the entries are while every group that is left was shared. -/
structure Balanced (configured : List String) (s : Node) : Prop where
  le : ∀ g, requests s.served .leave g ≤ requests s.served .join g
  lt : ∀ g, 0 < requests s.served .join g → requests s.served .leave g < requests s.served .join g
  entry : ∀ g, s.server.groups g =
    if g ∈ configured ∨ 0 < requests s.served .join g then
      some (UInt64.ofNat (requests s.served .join g - requests s.served .leave g))
    else none
  member : ∀ g, s.server.member g = (s.server.groups g).isSome
  intact : s.server.erasedUses = 0

theorem balanced_start : Balanced configured (.start configured) := by
  refine ⟨fun g => ?_, fun g => ?_, fun g => ?_, fun g => ?_, rfl⟩
  · exact Nat.le_refl _
  · simp [Node.start, requests]
  · simp [Node.start, Server.start, requests]
  · by_cases h : g ∈ configured <;> simp [Node.start, Server.start, h]

theorem Balanced.counted (h : Balanced configured s) : Counted configured s := by
  refine ⟨fun g => ?_, h.intact⟩
  have hl : 0 < requests s.served .join g ↔ requests s.served .leave g < requests s.served .join g :=
    ⟨h.lt g, fun hl => Nat.lt_of_le_of_lt (Nat.zero_le _) hl⟩
  rw [h.member, h.entry, ← hl]
  split
  · next hn => exact iff_of_true rfl hn
  · next hn => exact iff_of_false (by simp) hn

theorem groups_serve_of_ne (hn : g ≠ r.group) : (s.server.serve r).groups g = s.server.groups g := by
  unfold Server.serve
  split
  · split <;> simp [Server.setEntry, Server.setMember, hn]
  · split
    · rfl
    · split
      · simp [Server.setEntry, Server.setMember, hn]
      · split <;> simp [Server.setEntry, hn]

theorem requests_append_of_ne (hn : g ≠ r.group) : requests (rs ++ [r]) kind g = requests rs kind g := by
  rw [requests_append, if_neg fun h => hn h.2.symm]
  rfl

theorem requests_append_self (hk : r.kind = kind) :
    requests (rs ++ [r]) kind r.group = requests rs kind r.group + 1 := by
  rw [requests_append, if_pos ⟨hk, rfl⟩]

theorem requests_append_other (hk : r.kind ≠ kind) : requests (rs ++ [r]) kind g = requests rs kind g := by
  rw [requests_append, if_neg fun h => hk h.1]
  rfl

theorem groups_serve_join (hr : r.kind = .join) :
    (s.server.serve r).groups r.group = some (((s.server.groups r.group).map (· + 1)).getD 1) := by
  simp only [Server.serve, hr]
  split <;> simp_all [Server.setEntry, Server.setMember]

theorem groups_serve_leave {n : UInt64} (hr : r.kind = .leave) (hn : s.server.groups r.group = some n) (hl : 1 < n) :
    s.server.serve r = s.server.setEntry r.group (some (n - 1)) := by
  have hne : n ≠ 1 := fun h => by rw [h] at hl; exact absurd hl (by decide)
  simp [Server.serve, hr, hn, hne, hl]

theorem member_serve_join (hr : r.kind = .join) (h : ∀ g, s.server.member g = (s.server.groups g).isSome) (g : String) :
    (s.server.serve r).member g = ((s.server.serve r).groups g).isSome := by
  by_cases hg : g = r.group
  · subst hg
    rw [groups_serve_join hr]
    simp only [Server.serve, hr]
    split
    · simp [Server.setMember]
    · next n hn => simp [Server.setEntry, h, hn]
  · rw [groups_serve_of_ne hg, ← h g]
    simp only [Server.serve, hr]
    split <;> simp [Server.setEntry, Server.setMember, hg]

section
variable (h : Balanced configured s)
include h

theorem Balanced.join (hr : r.kind = .join) : Balanced configured ⟨s.server.serve r, s.served ++ [r]⟩ := by
  have hl : ∀ g, requests (s.served ++ [r]) .leave g = requests s.served .leave g :=
    fun g => requests_append_other (by simp [hr])
  have hj := @requests_append_self r s.served _ hr
  refine ⟨fun g => ?_, fun g => ?_, fun g => ?_, member_serve_join hr h.member, ?_⟩
  · have := h.le g
    rw [hl, requests_append]
    omega
  · intro hp
    by_cases hg : g = r.group
    · subst hg
      have := h.le r.group
      rw [hl, hj]
      omega
    · rw [requests_append_of_ne hg] at hp
      rw [hl, requests_append_of_ne hg]
      exact h.lt g hp
  · by_cases hg : g = r.group
    · subst hg
      have hle := h.le r.group
      rw [groups_serve_join hr, h.entry, hl, hj, if_pos (Or.inr (Nat.succ_pos _))]
      split
      · rw [Nat.sub_add_comm hle, UInt64.ofNat_add]
        rfl
      · next hn =>
        have hzero : requests s.served .join r.group = 0 := by omega
        have hzero' : requests s.served .leave r.group = 0 := by omega
        rw [hzero, hzero']
        rfl
    · rw [groups_serve_of_ne hg, hl, requests_append_of_ne hg]
      exact h.entry g
  · have hi := h.intact
    simp only [Server.serve, hr]
    split <;> simpa [Server.setEntry, Server.setMember] using hi

theorem Balanced.two_le {n : UInt64} (hn : s.server.groups g = some n) (hl : 1 < n) :
    n = UInt64.ofNat (requests s.served .join g - requests s.served .leave g) ∧
      requests s.served .leave g + 2 ≤ requests s.served .join g := by
  rw [h.entry] at hn
  split at hn
  · cases hn
    refine ⟨rfl, ?_⟩
    have ha := UInt64.lt_iff_toNat_lt.mp hl
    rw [UInt64.toNat_ofNat'] at ha
    have ho : (1 : UInt64).toNat = 1 := rfl
    omega
  · cases hn

theorem Balanced.leave (hr : r.kind = .leave) (hh : Shared s r) :
    Balanced configured ⟨s.server.serve r, s.served ++ [r]⟩ := by
  obtain ⟨n, hn, ht⟩ := hh hr
  obtain ⟨hc, htw⟩ := h.two_le hn ht
  have hs := groups_serve_leave hr hn ht
  have hj : ∀ g, requests (s.served ++ [r]) .join g = requests s.served .join g :=
    fun g => requests_append_other (by simp [hr])
  have hl := @requests_append_self r s.served _ hr
  refine ⟨fun g => ?_, fun g => ?_, fun g => ?_, fun g => ?_, ?_⟩
  · by_cases hg : g = r.group
    · subst hg
      rw [hj, hl]
      omega
    · rw [hj, requests_append_of_ne hg]
      exact h.le g
  · intro hp
    by_cases hg : g = r.group
    · subst hg
      rw [hj, hl]
      omega
    · rw [hj] at hp ⊢
      rw [requests_append_of_ne hg]
      exact h.lt g hp
  · by_cases hg : g = r.group
    · subst hg
      rw [hs, hj, hl, if_pos (Or.inr (by omega)), hc]
      have hu : requests s.served .join r.group - requests s.served .leave r.group =
          requests s.served .join r.group - (requests s.served .leave r.group + 1) + 1 := by omega
      rw [hu]
      simp [Server.setEntry]
    · rw [groups_serve_of_ne hg, hj, requests_append_of_ne hg]
      exact h.entry g
  · rw [hs]
    by_cases hg : g = r.group
    · subst hg
      simp [Server.setEntry, h.member, hn]
    · simp [Server.setEntry, h.member, hg]
  · rw [hs]
    exact h.intact

theorem Balanced.step (hs : Shared s r) (ht : s.step r = some t) : Balanced configured t := by
  cases ht
  cases hk : r.kind with
  | join => exact h.join hk
  | leave => exact h.leave hk hs

end

def HeldCounts (s : Node) : Prop :=
  ∀ g, (held s.served).countP (·.2 = g) + requests s.served .leave g = requests s.served .join g

theorem HeldCounts.step (h : HeldCounts s) (ho : OnlyJoined s r) (ht : s.step r = some t) : HeldCounts t := by
  cases ht
  intro g
  have hg := h g
  cases hk : r.kind with
  | join =>
    simp only [held_append_join hk, requests_append, countP_cons, hk, reduceCtorEq, false_and, if_false]
    by_cases heq : r.group = g <;> simp [heq] <;> omega
  | leave =>
    -- One of the joins that were held is gone.
    have hr := (perm_cons_erase (ho hk)).countP_eq (·.2 = g)
    simp only [held_append_leave hk, requests_append, hk, reduceCtorEq, false_and, if_false]
    by_cases heq : r.group = g <;> simp [heq] at hr ⊢ <;> omega

theorem shared_of_intact (h : Balanced configured s) (hh : HeldCounts s) (ho : OnlyJoined s r)
    (hs : s.served.length < 2 ^ 64) (hi : (s.server.serve r).erasedUses = 0) : Shared s r := by
  intro hr
  have hp : 0 < (held s.served).countP (·.2 = r.group) :=
    countP_pos_iff.mpr ⟨_, ho hr, by simp⟩
  have hc := hh r.group
  have hbound : requests s.served .join r.group ≤ s.served.length := countP_le_length
  have hn := h.entry r.group
  rw [if_pos (Or.inr (by omega))] at hn
  refine ⟨_, hn, ?_⟩
  have ha : (UInt64.ofNat (requests s.served .join r.group - requests s.served .leave r.group)).toNat =
      requests s.served .join r.group - requests s.served .leave r.group :=
    UInt64.toNat_ofNat_of_lt' (show _ < 2 ^ 64 by omega)
  apply UInt64.lt_iff_toNat_lt.mpr
  by_contra hoe
  have hd : requests s.served .join r.group - requests s.served .leave r.group = 1 := by
    have : (1 : UInt64).toNat = 1 := rfl
    omega
  rw [hd] at hn
  simp [Server.serve, hr, hn] at hi

theorem served_run (hr : run Node.step s rs = some t) : t.served = s.served ++ rs := by
  induction rs generalizing s with
  | nil =>
    cases hr
    simp
  | cons r rs ih =>
    obtain ⟨u, hu, hre⟩ := run_cons_eq_some.mp hr
    cases hu
    simpa using ih hre

end

/-- Membership is counted while every group that is left has a count above 1, and only then where
clients leave what they joined and no count wraps. -/
theorem membership_counted_iff (configured : List String) (rs : List Request) :
    (EveryStep Node.step Shared (.start configured) rs →
      ∀ pre post t, rs = pre ++ post → run Node.step (.start configured) pre = some t → Counted configured t) ∧
    (EveryStep Node.step OnlyJoined (.start configured) rs → rs.length < 2 ^ 64 →
      (∀ pre post t, rs = pre ++ post → run Node.step (.start configured) pre = some t → Counted configured t) →
      EveryStep Node.step Shared (.start configured) rs) := by
  constructor
  · intro hh pre post t hp hru
    rw [hp] at hh
    have hb : Balanced configured t :=
      run_invariant (fun _ _ _ hs hr ht => hs.step hr ht) balanced_start hh.take hru
    exact hb.counted
  · intro ho hsm hc
    have hh : ∀ pre post, rs = pre ++ post → EveryStep Node.step Shared (.start configured) pre := by
      intro pre
      induction pre using List.reverseRecOn with
      | nil =>
        intro _ _
        exact everyStep_nil
      | append_singleton pre r ih =>
        intro post hp
        have hs' : rs = pre ++ r :: post := by simp [hp]
        have hpr := ih (r :: post) hs'
        refine hpr.concat fun u hu => ?_
        have hb : Balanced configured u :=
          run_invariant (fun _ _ _ hs hr ht => hs.step hr ht) balanced_start hpr hu
        have ho' : EveryStep Node.step OnlyJoined (.start configured) (pre ++ r :: post) := hs' ▸ ho
        have hhe : HeldCounts u :=
          run_invariant (fun _ _ _ hs hr ht => hs.step hr ht) (fun _ => rfl) ho'.take hu
        have hn : run Node.step (.start configured) (pre ++ [r]) = some ⟨u.server.serve r, u.served ++ [r]⟩ := by
          rw [run_append, hu]
          rfl
        have hl : u.served.length < 2 ^ 64 := by
          rw [served_run hu]
          rw [hs', length_append] at hsm
          exact Nat.lt_of_le_of_lt (Nat.le_add_right _ _) hsm
        apply shared_of_intact hb hhe (ho pre r post u hs' hu) hl
        exact (hc (pre ++ [r]) post _ hp hn).intact
    exact hh rs [] (by simp)

/-- Two clients join a group, and one of them leaves it. -/
theorem membership_counted_shared :
    EveryStep Node.step Shared (.start ["a"]) [⟨1, .join, "b"⟩, ⟨2, .join, "b"⟩, ⟨1, .leave, "b"⟩] ∧
      ∀ pre post t, [⟨1, .join, "b"⟩, ⟨2, .join, "b"⟩, ⟨1, .leave, "b"⟩] = pre ++ post →
        run Node.step (.start ["a"]) pre = some t → Counted ["a"] t := by
  have hh : EveryStep Node.step Shared (.start ["a"]) [⟨1, .join, "b"⟩, ⟨2, .join, "b"⟩, ⟨1, .leave, "b"⟩] := by
    refine everyStep_cons (fun h => nomatch h) fun s hs => ?_
    cases hs
    refine everyStep_cons (fun h => nomatch h) fun t ht => ?_
    cases ht
    exact everyStep_cons (fun _ => ⟨2, by decide, by decide⟩) fun _ _ => everyStep_nil
  exact ⟨hh, (membership_counted_iff _ _).1 hh⟩

/-- A client joins and leaves a configured group: the node is no member, and an erased entry was
used. -/
theorem configured_group_left : EveryStep Node.step OnlyJoined (.start ["a"]) [⟨1, .join, "a"⟩, ⟨1, .leave, "a"⟩] ∧
      ∃ t, run Node.step (.start ["a"]) [⟨1, .join, "a"⟩, ⟨1, .leave, "a"⟩] = some t ∧
        t.server.member "a" = false ∧ t.server.erasedUses = 1 ∧ ¬Counted ["a"] t := by
  refine ⟨?_, _, rfl, by decide, by decide, fun h => ?_⟩
  · refine everyStep_cons (fun h => nomatch h) fun s hs => ?_
    cases hs
    exact everyStep_cons (fun _ => by decide) fun _ _ => everyStep_nil
  · exact absurd h.intact (by decide)

end Gyro.Zyre
