import Gyro.Config
import Gyro.Lib.Runs

/-!
# The receiving side of a zyre client

`client::start` (`zyre.cpp`) arms one receive, and the handler calls it again behind its
`try` block; the `return` for another protocol version does not.
-/

namespace Gyro.Zyre

open Runs

def verMajor : UInt64 := 0
def verMinor : UInt64 := 1

def frame (s : String) : Blob := s.toUTF8.toList

def shout : Blob := frame "SHOUT"
def whisper : Blob := frame "WHISPER"
def inprocShout : Blob := frame "inproc.SHOUT"
def inprocWhisper : Blob := frame "inproc.WHISPER"
def reply : Blob := frame "REPLY"

def errorShortEvent : String := "error short event"

/-- The tables of a client. A method or reply function is known by a handle. -/
structure Client (H : Type) where
  meth : List (Blob × H)
  methR : List (Blob × H)
  /-- `reply_`: for a cookie the time it is kept to and the function. -/
  reply : List (UInt64 × UInt64 × H)

/-- The error code, the first frame with its size, whether there are more, and what `receive_more`
gives. -/
structure Received where
  error : Option String
  first : Blob
  more : Bool
  bc : Nat
  rest : Except String (List Blob)

/-- A call can register methods, wait for replies, answer, stop the `io_service`, and throw. -/
structure Outcome (H : Type) where
  client : Client H
  replies : List Blob
  stops : Bool
  threw : Option String

/-- The functions behind the handles, and reading a number; `none` where that throws. -/
structure ClientEnv (H : Type) where
  call : H → Blob → Client H → Outcome H
  unpack : Blob → Option UInt64

structure Answer where
  action : Blob
  peer : Blob
  result : Blob
  cookie : UInt64
  deriving DecidableEq

inductive Exit where
  | completed
  | returned
  | threw (what : String)
  deriving DecidableEq

structure Handled (H : Type) where
  client : Client H
  /-- The function that was called, with its data. -/
  called : Option (H × Blob)
  answers : List Answer
  stops : Bool
  exit : Exit

section
variable {H : Type} (env : ClientEnv H) (c : Client H) (r : Received) (now : UInt64)

def isLocal (op : Blob) : Bool := op = inprocShout ∨ op = inprocWhisper

def isShout (op : Blob) : Bool := op = shout ∨ op = inprocShout

def isWhisper (op : Blob) : Bool := op = whisper ∨ op = inprocWhisper

/-- Peer, name, group and source, or only the peer when the message is local. -/
def headerSize (op : Blob) : Nat := if isLocal op then 1 else if isShout op then 4 else 3

def Handled.threw (what : String) : Handled H := ⟨c, none, [], false, .threw what⟩

def removeTimeout (c : Client H) : Client H := { c with reply := c.reply.filter fun e => ¬e.2.1 < now }

/-- A function is called; what it answers, if it is one that can, is sent to the peer. -/
def callHandle (h : H) (canReply : Bool) (data : Blob) (op peer : Blob) (cookie : UInt64) : Handled H :=
  let o := env.call h data c
  let answers := if canReply then
      o.replies.map fun result => ⟨if isLocal op then inprocWhisper else whisper, peer, result, cookie⟩
    else []
  match o.threw with
  | some what => ⟨o.client, some (h, data), answers, o.stops, .threw what⟩
  | none => ⟨removeTimeout now o.client, some (h, data), answers, o.stops, .completed⟩

/-- One that waits for the cookie, a method with a reply, or one without. -/
def target (cmd : Blob) (cookie : UInt64) : Option (H × Bool) :=
  if cmd = reply then (c.reply.lookup cookie).map fun e => (e.2, false)
  else ((c.methR.lookup cmd).map (·, true)).or ((c.meth.lookup cmd).map (·, false))

def dispatch (op : Blob) (vec : List Blob) : Handled H :=
  let n := headerSize op
  match env.unpack (vec.getD n []), env.unpack (vec.getD (n + 1) []), env.unpack (vec.getD (n + 2) []) with
  | some major, some minor, some cookie =>
    if minor = verMinor ∧ major = verMajor then
      match target c (vec.getD (n + 3) []) cookie with
      | some (h, canReply) => callHandle env c now h canReply (vec.getD (n + 4) []) op (vec.getD 0 []) cookie
      | none => ⟨removeTimeout now c, none, [], false, .completed⟩
    else ⟨c, none, [], false, .returned⟩
  | _, _, _ => .threw c "msgpack"

def tryBlock : Handled H :=
  match r.error with
  | some what => .threw c what
  | none =>
    if !r.more ∨ r.bc = 0 then .threw c errorShortEvent
    else
      match r.rest with
      | .error what => .threw c what
      | .ok vec =>
        if isShout r.first ∨ isWhisper r.first then
          if headerSize r.first + 5 > vec.length then .threw c errorShortEvent
          else dispatch env c now r.first vec
        else ⟨removeTimeout now c, none, [], false, .completed⟩

/-! ## The loop of receives -/

structure Loop (H : Type) where
  client : Client H
  /-- How many receives are armed. -/
  armed : Nat
  /-- The `io_service` has been stopped. -/
  stopped : Bool
  calls : List (H × Blob)
  answers : List Answer

inductive Event (H : Type) where
  | message (r : Received) (now : UInt64)
  | acts (h : H) (data : Blob)

def Loop.start : Loop H := ⟨c, 1, false, [], []⟩

/-- The handler, called for an armed receive: `start` is called behind the `try` block. -/
def handler (s : Loop H) : Loop H :=
  let s := { s with armed := s.armed - 1 }
  if s.stopped then s
  else
    let b := tryBlock env s.client r now
    { client := b.client
      armed := match b.exit with
        | .returned => s.armed
        | .completed | .threw _ => s.armed + 1
      stopped := b.stops
      calls := s.calls ++ b.called.toList
      answers := s.answers ++ b.answers }

def Loop.step (s : Loop H) : Event H → Option (Loop H)
  | .message r now => some (if s.armed = 0 then s else handler env r now s)
  | .acts h data =>
    let o := env.call h data s.client
    some { s with client := o.client, stopped := s.stopped || o.stops }

def Requests (h : H) (data : Blob) : Prop :=
  r.error = none ∧ r.more = true ∧ r.bc ≠ 0 ∧ (isShout r.first ∨ isWhisper r.first) ∧
    ∃ vec cookie canReply, r.rest = .ok vec ∧ headerSize r.first + 5 ≤ vec.length ∧
      env.unpack (vec.getD (headerSize r.first) []) = some verMajor ∧
      env.unpack (vec.getD (headerSize r.first + 1) []) = some verMinor ∧
      env.unpack (vec.getD (headerSize r.first + 2) []) = some cookie ∧
      target c (vec.getD (headerSize r.first + 3) []) cookie = some (h, canReply) ∧
      vec.getD (headerSize r.first + 4) [] = data

/-- One receive is armed, and a request that comes in next is served. -/
def Listening (s : Loop H) : Prop :=
  s.armed = 1 ∧ ∀ r now h data, Requests env s.client r h data →
    ∃ t, s.step env (.message r now) = some t ∧ t.calls = s.calls ++ [(h, data)]

/-- A shout or whisper with all its frames and numbers, of another version. -/
def OtherVersion : Prop :=
  r.error = none ∧ r.more = true ∧ r.bc ≠ 0 ∧ (isShout r.first ∨ isWhisper r.first) ∧
    ∃ vec major minor cookie, r.rest = .ok vec ∧ headerSize r.first + 5 ≤ vec.length ∧
      env.unpack (vec.getD (headerSize r.first) []) = some major ∧
      env.unpack (vec.getD (headerSize r.first + 1) []) = some minor ∧
      env.unpack (vec.getD (headerSize r.first + 2) []) = some cookie ∧
      ¬(minor = verMinor ∧ major = verMajor)

/-- The event is not a message of another version, or the `io_service` has stopped. -/
def SameVersion (s : Loop H) : Event H → Prop
  | .message r _ => s.stopped = true ∨ ¬OtherVersion env r
  | .acts _ _ => True

end

section
variable {H : Type} {env : ClientEnv H} {c : Client H} {r : Received} {now : UInt64} {s t : Loop H} {e : Event H}
  {h : H} {data : Blob}

/-! ## The `try` block -/

theorem exit_callHandle_ne (canReply : Bool) (op peer : Blob) (cookie : UInt64) :
    (callHandle env c now h canReply data op peer cookie).exit ≠ .returned := by
  unfold callHandle
  dsimp only
  split <;> simp

theorem called_callHandle (canReply : Bool) (op peer : Blob) (cookie : UInt64) :
    (callHandle env c now h canReply data op peer cookie).called = some (h, data) := by
  unfold callHandle
  dsimp only
  split <;> rfl

theorem exit_dispatch_iff (op : Blob) (vec : List Blob) : (dispatch env c now op vec).exit = .returned ↔
      ∃ major minor cookie, env.unpack (vec.getD (headerSize op) []) = some major ∧
        env.unpack (vec.getD (headerSize op + 1) []) = some minor ∧
        env.unpack (vec.getD (headerSize op + 2) []) = some cookie ∧ ¬(minor = verMinor ∧ major = verMajor) := by
  unfold dispatch
  dsimp only
  split
  · next major minor cookie ha hi hc =>
    simp only [ha, hi, hc, Option.some.injEq]
    split
    · next hv =>
      apply iff_of_false
      · split
        · exact exit_callHandle_ne _ _ _ _
        · simp
      · rintro ⟨_, _, _, rfl, rfl, rfl, ho⟩
        exact ho hv
    · next hv => exact iff_of_true rfl ⟨major, minor, cookie, rfl, rfl, rfl, hv⟩
  · next hn =>
    apply iff_of_false
    · simp [Handled.threw]
    · rintro ⟨major, minor, cookie, ha, hi, hc, -⟩
      exact hn major minor cookie ha hi hc

theorem tryBlock_eq_dispatch {vec : List Blob} (hr : r.error = none) (ho : r.more = true) (hb : r.bc ≠ 0)
    (hp : isShout r.first ∨ isWhisper r.first) (hre : r.rest = .ok vec) (hn : headerSize r.first + 5 ≤ vec.length) :
    tryBlock env c r now = dispatch env c now r.first vec := by
  have hf : ¬(!r.more ∨ r.bc = 0) := by simp [ho, hb]
  have hl : ¬headerSize r.first + 5 > vec.length := by omega
  simp only [tryBlock, hr, if_neg hf, hre, if_pos hp, if_neg hl]

theorem exit_tryBlock_iff : (tryBlock env c r now).exit = .returned ↔ OtherVersion env r := by
  constructor
  · intro hx
    unfold tryBlock at hx
    split at hx
    · cases hx
    · next hr =>
      split at hx
      · cases hx
      · next hf =>
        rw [not_or] at hf
        split at hx
        · cases hx
        · next vec hre =>
          split at hx
          · next ho =>
            split at hx
            · cases hx
            · next hlo =>
              obtain ⟨major, minor, cookie, hn⟩ := (exit_dispatch_iff _ _).mp hx
              exact ⟨hr, by simpa using hf.1, hf.2, ho, vec, major, minor, cookie, hre,
                by omega, hn⟩
          · cases hx
  · rintro ⟨hr, hmo, hb, ho, vec, major, minor, cookie, hre, hl, hn⟩
    rw [tryBlock_eq_dispatch hr hmo hb ho hre hl]
    exact (exit_dispatch_iff _ _).mpr ⟨major, minor, cookie, hn⟩

theorem called_of_requests (hr : Requests env c r h data) : (tryBlock env c r now).called = some (h, data) := by
  obtain ⟨her, ho, hb, hp, vec, cookie, canReply, hre, hl, ha, hi, hc, ht, rfl⟩ := hr
  rw [tryBlock_eq_dispatch her ho hb hp hre hl]
  simp only [dispatch, ha, hi, hc, and_self, if_true, ht]
  exact called_callHandle _ _ _ _

theorem armed_handler (hs : s.stopped = false) :
    (handler env r now s).armed = if (tryBlock env s.client r now).exit = .returned then s.armed - 1
      else s.armed - 1 + 1 := by
  simp only [handler, hs, Bool.false_eq_true, if_false]
  cases (tryBlock env s.client r now).exit <;> simp

theorem calls_handler (hs : s.stopped = false) :
    (handler env r now s).calls = s.calls ++ (tryBlock env s.client r now).called.toList := by
  simp [handler, hs]

theorem step_message (ha : s.armed = 1) : s.step env (.message r now) = some (handler env r now s) := by
  simp [Loop.step, ha]

theorem listening_of_armed (hs : s.stopped = false) (ha : s.armed = 1) : Listening env s := by
  refine ⟨ha, fun r now h data hr => ⟨_, step_message ha, ?_⟩⟩
  rw [calls_handler hs, called_of_requests hr]
  rfl

theorem armed_step (hs : s.stopped = true ∨ s.armed = 1) (he : SameVersion env s e) (ht : s.step env e = some t) :
    t.stopped = true ∨ t.armed = 1 := by
  cases e with
  | acts h data =>
    cases ht
    rcases hs with hs | hs
    · exact Or.inl (by simp [hs])
    · exact Or.inr hs
  | message r now =>
    cases ht
    by_cases hst : s.stopped = true
    · left
      split
      · exact hst
      · simp [handler, hst]
    · have ha : s.armed = 1 := hs.resolve_left hst
      have hv : ¬(tryBlock env s.client r now).exit = .returned :=
        mt exit_tryBlock_iff.mp (he.resolve_left hst)
      rw [if_neg (by omega), armed_handler (by simpa using hst), if_neg hv]
      omega

theorem deaf_step (hs : s.stopped = false) (ha : s.armed = 1) (hr : OtherVersion env r) :
    ∃ t, s.step env (.message r now) = some t ∧ t.stopped = false ∧ t.armed = 0 := by
  have hx : (tryBlock env s.client r now).exit = .returned := exit_tryBlock_iff.mpr hr
  refine ⟨_, step_message ha, ?_, ?_⟩
  · obtain ⟨her, ho, hb, hp, vec, major, minor, cookie, hre, hl, hma, hi, hc, ht⟩ := hr
    simp only [handler, hs, Bool.false_eq_true, if_false]
    rw [tryBlock_eq_dispatch her ho hb hp hre hl]
    simp only [dispatch, hma, hi, hc, if_neg ht]
  · rw [armed_handler hs, if_pos hx, ha]

/-- The client goes on listening until the `io_service` stops if and only if no message before is of
another version. -/
theorem hears_iff (env : ClientEnv H) (c : Client H) (es : List (Event H)) :
    (∀ pre post t, es = pre ++ post → run (Loop.step env) (Loop.start c) pre = some t →
      t.stopped = true ∨ Listening env t) ↔
      EveryStep (Loop.step env) (SameVersion env) (Loop.start c) es := by
  constructor
  · intro ha pre e post u hp hr
    rcases ha pre (e :: post) u hp hr with hst | hl
    · cases e with
      | message r now => exact Or.inl hst
      | acts h data => trivial
    · cases e with
      | acts h data => trivial
      | message r now =>
        by_cases hst : u.stopped = true
        · exact Or.inl hst
        refine Or.inr fun ho => ?_
        obtain ⟨t, hse, hg, hd⟩ := @deaf_step _ env r now u (by simpa using hst) hl.1 ho
        have hn : run (Loop.step env) (Loop.start c) (pre ++ [.message r now]) = some t := by
          rw [run_append, hr]
          exact run_cons_eq_some.mpr ⟨t, hse, rfl⟩
        rcases ha (pre ++ [.message r now]) post t (by simp [hp]) hn with hb | hb
        · rw [hg] at hb
          cases hb
        · have := hb.1
          omega
  · intro hv pre post t hp hr
    rw [hp] at hv
    have har : t.stopped = true ∨ t.armed = 1 :=
      run_invariant (I := fun t : Loop H => t.stopped = true ∨ t.armed = 1)
        (fun _ _ _ hs he ht => armed_step hs he ht) (Or.inr rfl) hv.take hr
    by_cases hst : t.stopped = true
    · exact Or.inl hst
    · exact Or.inr (listening_of_armed (by simpa using hst) (har.resolve_left hst))

end

namespace Sample

def echoEnv : ClientEnv Unit where
  call _ data c := ⟨c, [data], false, none⟩
  unpack
    | [n] => some n.toUInt64
    | _ => none

def echoClient : Client Unit := ⟨[], [(frame "echo", ())], []⟩

def whispered (major minor : UInt8) (cmd : String) : Received :=
  ⟨none, whisper, true, 7, .ok [frame "peer", frame "name", frame "src", [major], [minor], [9], frame cmd, [5]]⟩

end Sample

open Sample

/-- A request after a message of version 1.1 is not served any more. -/
theorem other_version_deafens : ¬(∀ pre post t, [Event.message (whispered 1 1 "echo") 0] = pre ++ post →
        run (Loop.step echoEnv) (Loop.start echoClient) pre = some t → t.stopped = true ∨ Listening echoEnv t) ∧
      ((run (Loop.step echoEnv) (Loop.start echoClient) [.message (whispered 0 1 "echo") 0]).map (·.calls)) =
        some [((), [5])] ∧ ((run (Loop.step echoEnv) (Loop.start echoClient) [.message (whispered 1 1 "echo") 0,
        .message (whispered 0 1 "echo") 0]).map fun t => (t.armed, t.stopped, t.calls)) = some (0, false, []) := by
  have hd : ∃ t, run (Loop.step echoEnv) (Loop.start echoClient) [.message (whispered 1 1 "echo") 0] = some t ∧
      (t.armed, t.stopped) = (0, false) := ⟨_, rfl, by decide +kernel⟩
  refine ⟨fun ha => ?_, by decide +kernel, by decide +kernel⟩
  obtain ⟨t, hr, hf⟩ := hd
  obtain ⟨har, hs⟩ := Prod.mk.inj hf
  rcases ha _ [] t (by simp) hr with h | h
  · rw [hs] at h
    cases h
  · have := h.1
    omega

end Gyro.Zyre
