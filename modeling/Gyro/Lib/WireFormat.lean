import Mathlib.Algebra.Group.Nat.Defs
import Mathlib.Data.List.Basic
import Mathlib.Order.Basic

/-!
# Wire formats

One description of a record serves to write and to read it: what was written is read
back, and what is read is what would be written, unless a number was ended by the end
of the input, of which the input keeps track.
-/

/-- The bytes left, and whether a number was ended by the end of the input. -/
structure Input where
  bytes : List UInt8
  cut : Bool
  deriving DecidableEq

structure WireFormat (α : Type) where
  read : Input → Option (α × Input)
  /-- `none` for a value that is not written. -/
  write : α → Option (List UInt8)
  read_write : ∀ {a bytes}, write a = some bytes → ∀ rest cut, read ⟨bytes ++ rest, cut⟩ = some (a, ⟨rest, cut⟩)
  cut_of_cut : ∀ {s a t}, read s = some (a, t) → s.cut = true → t.cut = true
  write_read : ∀ {s a t}, read s = some (a, t) →
    ∃ bytes, write a = some bytes ∧ (t.cut = false → s.bytes = bytes ++ t.bytes)

namespace WireFormat

open List

variable {α β : Type}

variable {a : α}

theorem not_cut (f : WireFormat α) {s t : Input} (h : f.read s = some (a, t)) (hcut : t.cut = false) :
    s.cut = false := by
  rw [← Bool.not_eq_true]
  intro hs
  rw [f.cut_of_cut h hs] at hcut
  cases hcut

/-! ## Combining formats -/

def fail : WireFormat α where
  read _ := none
  write _ := none
  read_write h := by cases h
  cut_of_cut h := by cases h
  write_read h := by cases h

def const [DecidableEq α] (a : α) : WireFormat α where
  read s := some (a, s)
  write b := if b = a then some [] else none
  read_write {b bytes} h rest cut := by
    split at h
    · rename_i heq
      cases h
      rw [heq]
      rfl
    · cases h
  cut_of_cut h hcut := by
    cases h
    exact hcut
  write_read h := by
    cases h
    exact ⟨[], if_pos rfl, fun _ => rfl⟩

def sigma (first : WireFormat α) (second : α → WireFormat β) : WireFormat (α × β) where
  read s := (first.read s).bind fun p => ((second p.1).read p.2).map fun q => ((p.1, q.1), q.2)
  write ab := (first.write ab.1).bind fun x => ((second ab.1).write ab.2).map fun y => x ++ y
  read_write {ab bytes} h rest cut := by
    obtain ⟨x, hx, hrest⟩ := Option.bind_eq_some_iff.mp h
    obtain ⟨y, hy, rfl⟩ := Option.map_eq_some_iff.mp hrest
    simp [List.append_assoc, first.read_write hx, (second ab.1).read_write hy]
  cut_of_cut {s ab t} h hcut := by
    obtain ⟨p, hp, hrest⟩ := Option.bind_eq_some_iff.mp h
    obtain ⟨q, hq, heq⟩ := Option.map_eq_some_iff.mp hrest
    cases heq
    exact (second p.1).cut_of_cut hq (first.cut_of_cut hp hcut)
  write_read {s ab t} h := by
    obtain ⟨p, hp, hrest⟩ := Option.bind_eq_some_iff.mp h
    obtain ⟨q, hq, heq⟩ := Option.map_eq_some_iff.mp hrest
    cases heq
    obtain ⟨x, hx, hfirst⟩ := first.write_read hp
    obtain ⟨y, hy, hsecond⟩ := (second p.1).write_read hq
    refine ⟨x ++ y, by simp [hx, hy], fun hcut => ?_⟩
    rw [hfirst ((second p.1).not_cut hq hcut), hsecond hcut, List.append_assoc]

variable {bytes : List UInt8} {first : WireFormat α}

theorem write_sigma {second : α → WireFormat β} {b : β} (h : (first.sigma second).write (a, b) = some bytes) :
    ∃ x y, first.write a = some x ∧ (second a).write b = some y ∧ bytes = x ++ y := by
  obtain ⟨x, hx, hrest⟩ := Option.bind_eq_some_iff.mp h
  obtain ⟨y, hy, rfl⟩ := Option.map_eq_some_iff.mp hrest
  exact ⟨x, y, hx, hy, rfl⟩

def pair (first : WireFormat α) (second : WireFormat β) : WireFormat (α × β) := first.sigma fun _ => second

def via (f : WireFormat α) (inj : α → β) (proj : β → Option α)
    (proj_inj : ∀ a bytes, f.write a = some bytes → proj (inj a) = some a)
    (inj_proj : ∀ a b, proj b = some a → inj a = b) : WireFormat β where
  read s := (f.read s).map fun p => (inj p.1, p.2)
  write b := (proj b).bind f.write
  read_write {b bytes} h rest cut := by
    obtain ⟨a, ha, hbytes⟩ := Option.bind_eq_some_iff.mp h
    simp [f.read_write hbytes, inj_proj a b ha]
  cut_of_cut {s b t} h hcut := by
    obtain ⟨p, hp, heq⟩ := Option.map_eq_some_iff.mp h
    cases heq
    exact f.cut_of_cut hp hcut
  write_read {s b t} h := by
    obtain ⟨p, hp, heq⟩ := Option.map_eq_some_iff.mp h
    cases heq
    obtain ⟨bytes, hbytes, hread⟩ := f.write_read hp
    exact ⟨bytes, by simp [proj_inj p.1 bytes hbytes, hbytes], hread⟩

def iso (f : WireFormat α) (toB : α → β) (ofB : β → α) (left : ∀ a, ofB (toB a) = a) (right : ∀ b, toB (ofB b) = b) :
    WireFormat β :=
  f.via toB (fun b => some (ofB b)) (fun a _ _ => congrArg some (left a)) (by
    intro a b h
    cases h
    exact right b)

def guard (f : WireFormat α) (p : α → Bool) : WireFormat α where
  read s := (f.read s).filter fun q => p q.1
  write a := if p a then f.write a else none
  read_write {a bytes} h rest cut := by
    split at h
    · rename_i hp
      simp [f.read_write h, hp]
    · cases h
  cut_of_cut {s a t} h hcut := f.cut_of_cut (Option.filter_eq_some_iff.mp h).1 hcut
  write_read {s a t} h := by
    obtain ⟨hread, hp⟩ := Option.filter_eq_some_iff.mp h
    obtain ⟨bytes, hbytes, hall⟩ := f.write_read hread
    exact ⟨bytes, by rw [if_pos hp, hbytes], hall⟩

variable {f : WireFormat α}

theorem write_guard {p : α → Bool} (h : (f.guard p).write a = some bytes) : f.write a = some bytes := by
  simp only [guard] at h
  split at h
  · exact h
  · cases h

def byte : WireFormat UInt8 where
  read s :=
    match s.bytes with
    | [] => none
    | b :: rest => some (b, ⟨rest, s.cut⟩)
  write b := some [b]
  read_write h rest cut := by
    cases h
    rfl
  cut_of_cut {s b t} h hcut := by
    split at h
    · cases h
    · cases h
      exact hcut
  write_read {s b t} h := by
    split at h
    · cases h
    · rename_i b rest hbytes
      cases h
      exact ⟨[b], rfl, fun _ => hbytes⟩

def blob (n : Nat) : WireFormat (List UInt8) where
  read s := if n ≤ s.bytes.length then some (s.bytes.take n, ⟨s.bytes.drop n, s.cut⟩) else none
  write b := if b.length = n then some b else none
  read_write {b bytes} h rest cut := by
    split at h
    · rename_i hlength
      cases h
      simp [hlength, List.take_left' hlength, List.drop_left' hlength]
    · cases h
  cut_of_cut {s b t} h hcut := by
    split at h
    · cases h
      exact hcut
    · cases h
  write_read {s b t} h := by
    split at h
    · rename_i hlength
      cases h
      exact ⟨s.bytes.take n, if_pos (by rw [List.length_take]; omega), fun _ => (List.take_append_drop n s.bytes).symm⟩
    · cases h

/-! ## Numbers

Digits to the base 128, the lowest first, each but the last with its high bit
set. A number has so many bits at most, and no zero digit behind the first. -/

/-- From position `shift` on, added to those before; and whether the end of the input ended the
number. -/
def readNumber (bits : Nat) : Nat → Nat → List UInt8 → Option (Nat × List UInt8 × Bool)
  | _, before, [] => some (before, [], true)
  | shift, before, digit :: rest =>
    if bits ≤ shift + 7 ∧ 2 ^ (bits - shift) ≤ digit.toNat then none
    else if digit = 0 ∧ shift ≠ 0 then none
    else
      let value := before + digit.toNat % 128 * 2 ^ shift
      if digit.toNat < 128 then some (value, rest, false) else readNumber bits (shift + 7) value rest

def writeNumber : Nat → Nat → List UInt8
  | 0, n => [UInt8.ofNat n]
  | fuel + 1, n => if 128 ≤ n then UInt8.ofNat (n % 128 + 128) :: writeNumber fuel (n / 128) else [UInt8.ofNat n]

theorem length_writeNumber_pos (fuel n : Nat) : 0 < (writeNumber fuel n).length := by
  cases fuel with
  | zero => exact Nat.one_pos
  | succ fuel =>
    unfold writeNumber
    split
    · exact Nat.succ_pos _
    · exact Nat.one_pos

section
variable {bits fuel shift before n : Nat} {rest : List UInt8}

theorem readNumber_last (hn : n < 128) (hfi : n * 2 ^ shift < 2 ^ bits) (ho : shift = 0 ∨ n ≠ 0) :
    readNumber bits shift before (UInt8.ofNat n :: rest) = some (before + n * 2 ^ shift, rest, false) := by
  have hd : (UInt8.ofNat n).toNat = n := UInt8.toNat_ofNat_of_lt' (show n < 256 by omega)
  have hv : ¬(bits ≤ shift + 7 ∧ 2 ^ (bits - shift) ≤ n) := by
    rintro ⟨-, hle⟩
    have hmul : 2 ^ (bits - shift) * 2 ^ shift ≤ n * 2 ^ shift := Nat.mul_le_mul_right _ hle
    have hpw : 2 ^ bits ≤ 2 ^ (bits - shift) * 2 ^ shift := by
      rw [← Nat.pow_add]
      exact Nat.pow_le_pow_right (by decide) (by omega)
    omega
  have hzero : ¬(UInt8.ofNat n = 0 ∧ shift ≠ 0) := by
    rintro ⟨heq, hs⟩
    have hn0 : n = 0 := by
      rw [← hd, heq]
      rfl
    exact ho.elim hs fun hne => hne hn0
  simp only [readNumber, hd, if_neg hv, if_neg hzero, if_pos hn, Nat.mod_eq_of_lt hn]

theorem readNumber_writeNumber (hfuel : n < 128 ^ (fuel + 1)) (hfi : n * 2 ^ shift < 2 ^ bits)
    (ho : shift = 0 ∨ n ≠ 0) :
    readNumber bits shift before (writeNumber fuel n ++ rest) = some (before + n * 2 ^ shift, rest, false) := by
  induction fuel generalizing shift before n with
  | zero => exact readNumber_last (by simpa using hfuel) hfi ho
  | succ fuel ih =>
    unfold writeNumber
    split
    · rename_i hmo
      have hd : (UInt8.ofNat (n % 128 + 128)).toNat = n % 128 + 128 :=
        UInt8.toNat_ofNat_of_lt' (show n % 128 + 128 < 256 by omega)
      have hbits : shift + 7 < bits := by
        rw [← Nat.pow_lt_pow_iff_right (show 1 < 2 by decide), Nat.pow_add, Nat.mul_comm]
        exact Nat.lt_of_le_of_lt (Nat.mul_le_mul_right _ hmo) hfi
      have hzero : ¬(UInt8.ofNat (n % 128 + 128) = 0 ∧ shift ≠ 0) := by
        rintro ⟨heq, -⟩
        rw [heq] at hd
        exact absurd hd (by simp)
      have hs : n % 128 * 2 ^ shift + n / 128 * 2 ^ (shift + 7) = n * 2 ^ shift := by
        rw [Nat.pow_add, Nat.mul_comm (2 ^ shift), ← Nat.mul_assoc, ← Nat.add_mul]
        congr 1
        omega
      have hrest : n / 128 < 128 ^ (fuel + 1) := by
        rw [Nat.div_lt_iff_lt_mul (by decide)]
        exact hfuel
      have hread := @ih (shift + 7) (before + n % 128 * 2 ^ shift) (n / 128) hrest (by omega) (Or.inr (by omega))
      have hv : ¬(bits ≤ shift + 7 ∧ 2 ^ (bits - shift) ≤ n % 128 + 128) := fun h => absurd h.1 (by omega)
      rw [cons_append]
      simp only [readNumber, hd, if_neg hv, if_neg hzero, if_neg (show ¬n % 128 + 128 < 128 by omega),
        Nat.add_mod_right, Nat.mod_mod, hread]
      rw [Nat.add_assoc, hs]
    · exact readNumber_last (by omega) hfi ho

theorem writeNumber_of_readNumber {digits : List UInt8} {cut : Bool} (hh : shift < bits)
    (hfuel : bits ≤ shift + 7 * (fuel + 1)) (h : readNumber bits shift before digits = some (n, rest, cut)) :
    ∃ i, i < 2 ^ (bits - shift) ∧ n = before + i * 2 ^ shift ∧
      (cut = false → digits = writeNumber fuel i ++ rest ∧ (shift ≠ 0 → i ≠ 0)) := by
  induction digits generalizing shift before fuel with
  | nil =>
    cases h
    exact ⟨0, Nat.two_pow_pos _, by simp, fun hcut => by cases hcut⟩
  | cons digit digits ih =>
    unfold readNumber at h
    split at h
    · cases h
    · rename_i ho
      split at h
      · cases h
      · rename_i hzero
        have hpw : shift + 7 < bits → 2 ^ (bits - shift) = 128 * 2 ^ (bits - (shift + 7)) := by
          intro hl
          have hex : bits - shift = 7 + (bits - (shift + 7)) := by omega
          rw [hex, Nat.pow_add]
        have hr : digit.toNat < 2 ^ (bits - shift) ∨ shift + 7 < bits := by
          rcases Nat.lt_or_ge (shift + 7) bits with hl | hg
          · exact Or.inr hl
          · exact Or.inl (Nat.lt_of_not_le fun hle => ho ⟨hg, hle⟩)
        split at h
        · rename_i hla
          cases h
          have hfi : digit.toNat < 2 ^ (bits - shift) := by
            refine hr.elim id fun hl => ?_
            have hon := Nat.two_pow_pos (bits - (shift + 7))
            omega
          refine ⟨digit.toNat, hfi, by rw [Nat.mod_eq_of_lt hla], fun _ => ⟨?_, fun hne heq => ?_⟩⟩
          · cases fuel with
            | zero => simp [writeNumber]
            | succ fuel => simp [writeNumber, show ¬128 ≤ digit.toNat by omega]
          · exact hzero ⟨UInt8.toNat_inj.mp heq, hne⟩
        · have hl : shift + 7 < bits := by
            refine hr.elim (fun hfi => ?_) id
            by_contra hg
            have hle : 2 ^ (bits - shift) ≤ 2 ^ 7 := Nat.pow_le_pow_right (by decide) (by omega)
            omega
          obtain ⟨fuel, rfl⟩ : ∃ f, fuel = f + 1 := Nat.exists_eq_succ_of_ne_zero (by omega)
          obtain ⟨i, hi, hn, hdigits⟩ := @ih fuel (shift + 7) _ hl (by omega) h
          have hby := digit.toNat_lt
          refine ⟨digit.toNat % 128 + 128 * i, ?_, ?_, fun hcut => ?_⟩
          · omega
          · rw [hn, Nat.pow_add, Nat.add_mul, Nat.add_assoc, Nat.mul_comm (2 ^ shift), ← Nat.mul_assoc,
              Nat.mul_comm i]
          · obtain ⟨hrest, hne⟩ := hdigits hcut
            have hb : UInt8.ofNat ((digit.toNat % 128 + 128 * i) % 128 + 128) = digit := by
              have hs : (digit.toNat % 128 + 128 * i) % 128 + 128 = digit.toNat := by omega
              rw [hs, UInt8.ofNat_toNat]
            have hdiv : (digit.toNat % 128 + 128 * i) / 128 = i := by omega
            refine ⟨?_, fun _ => by omega⟩
            rw [writeNumber, if_pos (by omega), hb, hdiv, hrest]
            rfl

theorem readNumber_cut {bytes : List UInt8} {cut : Bool} (h : readNumber bits shift before bytes = some (n, rest, cut)) :
    (cut = false ↔ ∃ b ∈ bytes, b < 0x80) ∧ (cut = true → rest = []) := by
  induction bytes generalizing shift before with
  | nil =>
    cases h
    simp
  | cons b bytes ih =>
    have hb : b < 0x80 ↔ b.toNat < 128 := UInt8.lt_iff_toNat_lt
    rw [readNumber] at h
    split at h
    · cases h
    · split at h
      · cases h
      · split at h
        · rename_i hl
          cases h
          simp [hb, hl]
        · rename_i ho
          simpa [hb, ho] using ih h

end

theorem word_bits_pos : 0 < 64 := by decide

def number (bits : Nat) (hbits : 0 < bits) : WireFormat Nat where
  read s := (readNumber bits 0 0 s.bytes).map fun p => (p.1, ⟨p.2.1, s.cut || p.2.2⟩)
  write n := if n < 2 ^ bits then some (writeNumber bits n) else none
  read_write {n bytes} h rest cut := by
    split at h
    · rename_i hn
      cases h
      have hfuel : n < 128 ^ (bits + 1) := by
        refine Nat.lt_of_lt_of_le hn (Nat.le_trans (Nat.pow_le_pow_left (show 2 ≤ 128 by decide) bits) ?_)
        exact Nat.pow_le_pow_right (by decide) (Nat.le_succ bits)
      simp [readNumber_writeNumber hfuel (by simpa using hn) (Or.inl rfl)]
    · cases h
  cut_of_cut {s n t} h hcut := by
    obtain ⟨p, -, heq⟩ := Option.map_eq_some_iff.mp h
    cases heq
    simp [hcut]
  write_read {s n t} h := by
    obtain ⟨⟨m, rest, cut⟩, hread, heq⟩ := Option.map_eq_some_iff.mp h
    cases heq
    obtain ⟨i, hi, hn, hdigits⟩ := @writeNumber_of_readNumber bits bits 0 0 m rest _ cut hbits (by omega) hread
    obtain rfl : m = i := by simpa using hn
    refine ⟨writeNumber bits m, if_pos hi, fun hcut => ?_⟩
    exact (hdigits (Bool.or_eq_false_iff.mp hcut).2).1

theorem lt_of_write_number {bits n : Nat} {hbits : 0 < bits}
    (h : (number bits hbits).write n = some bytes) : n < 2 ^ bits := by
  simp only [number] at h
  split at h
  · assumption
  · cases h

variable {n : Nat}

theorem length_of_write_blob {b bytes : List UInt8} (h : (blob n).write b = some bytes) : b.length = n := by
  simp only [blob] at h
  split at h
  · assumption
  · cases h

def each : List (WireFormat α) → WireFormat (List α)
  | [] =>
    { read := fun s => some ([], s)
      write := fun l => if l.isEmpty then some [] else none
      read_write := by
        intro l bytes h rest cut
        cases l with
        | nil =>
          cases h
          rfl
        | cons a l => cases h
      cut_of_cut := by
        intro s l t h hcut
        cases h
        exact hcut
      write_read := by
        intro s l t h
        cases h
        exact ⟨[], rfl, fun _ => rfl⟩ }
  | f :: fs =>
    (f.pair (each fs)).via (fun p => p.1 :: p.2)
      (fun
        | [] => none
        | a :: l => some (a, l))
      (fun _ _ _ => rfl)
      (by
        intro p l h
        cases l with
        | nil => cases h
        | cons a l =>
          cases h
          rfl)

def many (n : Nat) (f : WireFormat α) : WireFormat (List α) := each (List.replicate n f)

variable {l : List α}

theorem length_of_each {fs : List (WireFormat α)} (h : (each fs).write l = some bytes) : l.length = fs.length := by
  induction fs generalizing l bytes with
  | nil =>
    cases l with
    | nil => rfl
    | cons a l => cases h
  | cons f fs ih =>
    cases l with
    | nil => cases h
    | cons a l =>
      obtain ⟨x, y, -, hy, -⟩ := write_sigma (show (f.pair (each fs)).write (a, l) = some bytes from h)
      rw [length_cons, length_cons, ih hy]

theorem length_of_many (h : (many n f).write l = some bytes) : l.length = n := by
  rw [length_of_each h, length_replicate]

def Solid (f : WireFormat α) : Prop := ∀ {a bytes}, f.write a = some bytes → 0 < bytes.length

theorem le_length_of_many (hs : f.Solid) (h : (many n f).write l = some bytes) : n ≤ bytes.length := by
  induction n generalizing l bytes with
  | zero => omega
  | succ n ih =>
    cases l with
    | nil => cases h
    | cons a l =>
      obtain ⟨x, y, hx, hy, rfl⟩ := write_sigma (show (f.pair (many n f)).write (a, l) = some bytes from h)
      have ho := hs hx
      have hle := ih hy
      rw [length_append]
      omega

/-- A number of values, then the values; it may be refused where there are never enough bytes. -/
def counted (count : WireFormat Nat) (admits : Nat → List UInt8 → Bool) (f : WireFormat α)
    (hadmits : ∀ {l bytes}, (many l.length f).write l = some bytes → ∀ rest, admits l.length (bytes ++ rest) = true) :
    WireFormat (List α) where
  read s := (count.read s).bind fun p => if admits p.1 p.2.bytes then (many p.1 f).read p.2 else none
  write l := (count.write l.length).bind fun x => ((many l.length f).write l).map fun y => x ++ y
  read_write {l bytes} h rest cut := by
    obtain ⟨x, hx, hrest⟩ := Option.bind_eq_some_iff.mp h
    obtain ⟨y, hy, rfl⟩ := Option.map_eq_some_iff.mp hrest
    simp [List.append_assoc, count.read_write hx, hadmits hy, (many l.length f).read_write hy]
  cut_of_cut {s l t} h hcut := by
    obtain ⟨p, hp, hrest⟩ := Option.bind_eq_some_iff.mp h
    split at hrest
    · exact (many p.1 f).cut_of_cut hrest (count.cut_of_cut hp hcut)
    · cases hrest
  write_read {s l t} h := by
    obtain ⟨p, hp, hrest⟩ := Option.bind_eq_some_iff.mp h
    split at hrest
    · obtain ⟨x, hx, hcount⟩ := count.write_read hp
      obtain ⟨y, hy, hvalues⟩ := (many p.1 f).write_read hrest
      have hlength := length_of_many hy
      refine ⟨x ++ y, by simp [hlength, hx, hy], fun hcut => ?_⟩
      rw [hcount ((many p.1 f).not_cut hrest hcut), hvalues hcut, List.append_assoc]
    · cases hrest

def variant (tagOf : α → UInt8) (format : UInt8 → WireFormat α)
    (htag : ∀ {t a bytes}, (format t).write a = some bytes → tagOf a = t) : WireFormat α :=
  (byte.sigma format).via (fun p => p.2) (fun a => some (tagOf a, a))
    (by
      rintro ⟨t, a⟩ bytes h
      obtain ⟨x, y, -, hy, -⟩ := write_sigma h
      rw [htag hy])
    (by
      intro p a h
      cases h
      rfl)

/-! ## Formats that take a byte at least -/

theorem solid_byte : byte.Solid := by
  intro b bytes h
  cases h
  exact Nat.one_pos

theorem solid_blob (hn : 0 < n) : (blob n).Solid := by
  intro b bytes h
  simp only [blob] at h
  split at h
  · cases h
    omega
  · cases h

theorem solid_number {bits : Nat} (hbits : 0 < bits) : (number bits hbits).Solid := by
  intro n bytes h
  simp only [number] at h
  split at h
  · cases h
    exact length_writeNumber_pos bits n
  · cases h

theorem solid_sigma (hfirst : first.Solid) (second : α → WireFormat β) : (first.sigma second).Solid := by
  rintro ⟨a, b⟩ bytes h
  obtain ⟨x, y, hx, -, rfl⟩ := write_sigma h
  have ho := hfirst hx
  rw [length_append]
  omega

theorem solid_via (hf : f.Solid) {inj : α → β} {proj : β → Option α} {proj_inj} {inj_proj} :
    (f.via inj proj proj_inj inj_proj).Solid := by
  intro b bytes h
  obtain ⟨a, -, ha⟩ := Option.bind_eq_some_iff.mp h
  exact hf ha

/-- A list, its length first. The length may not be more than the bytes that are left. -/
def vector (f : WireFormat α) (hf : f.Solid) : WireFormat (List α) :=
  counted (number 64 word_bits_pos) (fun n rest => n ≤ rest.length) f (by
    intro l bytes h rest
    have hle := le_length_of_many hf h
    simp only [List.length_append, decide_eq_true_eq]
    omega)

/-! ## Whole inputs -/

def parse (f : WireFormat α) (bytes : List UInt8) : Option α :=
  match f.read ⟨bytes, false⟩ with
  | some (a, ⟨[], _⟩) => some a
  | _ => none

def NumbersEnd (f : WireFormat α) (bytes : List UInt8) : Prop :=
  ∀ a t, f.read ⟨bytes, false⟩ = some (a, t) → t.cut = false

theorem read_of_parse (h : f.parse bytes = some a) : ∃ cut, f.read ⟨bytes, false⟩ = some (a, ⟨[], cut⟩) := by
  unfold parse at h
  split at h
  · rename_i a' cut hread
    cases h
    exact ⟨cut, hread⟩
  · cases h

theorem parse_write (h : f.write a = some bytes) : f.parse bytes = some a := by
  have hread := f.read_write h [] false
  rw [append_nil] at hread
  rw [parse, hread]

/-- What is read to its end is what would be written, exactly if every number in it ends. -/
theorem write_iff_of_parse (h : f.parse bytes = some a) : f.write a = some bytes ↔ f.NumbersEnd bytes := by
  obtain ⟨cut, hread⟩ := read_of_parse h
  constructor
  · intro hr b t hb
    have hba := f.read_write hr [] false
    rw [append_nil] at hba
    cases hba.symm.trans hb
    rfl
  · intro hen
    obtain ⟨written, hwi, hbytes⟩ := f.write_read hread
    have hall : bytes = written ++ [] := hbytes (hen _ _ hread)
    rw [hall, append_nil, hwi]

end WireFormat
