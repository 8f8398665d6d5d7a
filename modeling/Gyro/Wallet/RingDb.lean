import Gyro.Archive
import Gyro.Rings
import Mathlib

/-!
# The ring database

`ringdb` (`wallet/ringdb.cpp`) with one key: a table of rings, encrypted under encrypted key images, and one of
outputs known to be spent. A call that throws aborts its transaction.
-/

namespace Gyro.Wallet.RingDb

/-- `make_iv` and `chacha20` for the key. -/
structure Cipher where
  makeIv : PublicKey → UInt8 → Blob
  chacha20 : Blob → Blob → Blob
  length_makeIv : ∀ k f, (makeIv k f).length = 8
  chacha20_chacha20 : ∀ iv s, chacha20 iv (chacha20 iv s) = s

structure Db where
  rings : Blob → Option Blob
  blackballs : UInt64 × UInt64 → Bool

/-- `mdb_put` of data, and `mdb_del`. -/
def Db.put (db : Db) (key : Blob) (data : Option Blob) : Db := { db with rings := Function.update db.rings key data }

def v1Tag : UInt64 := 798237759845202

def compressRing (ring : List UInt64) (tag : UInt64) : Blob := writeVarint tag ++ ring.flatMap writeVarint

/-- The loop of `decompress_ring`; `none` where it throws. -/
def decompressFrom : ℕ → UInt64 → Blob → Option (List UInt64)
  | _, _, [] => some []
  | 0, _, _ => none
  | fuel + 1, tag, s =>
    match readVarint s with
    | none => none
    | some (out, s) =>
      if tag ≠ 0 then if tag ≠ out then some [] else decompressFrom fuel 0 s
      else (decompressFrom fuel 0 s).map (out :: ·)

def decompressRing (s : Blob) (tag : UInt64) : Option (List UInt64) := decompressFrom s.length tag s

def absoluteOutputOffsetsToRelative (off : List UInt64) : List UInt64 :=
  let res := off.mergeSort (· ≤ ·)
  List.zipWith (· - ·) res (0 :: res)

/-- The ring that `add_rings` stores of an input, and `remove_rings` removes. -/
def ringOf : TxIn → Option (PublicKey × List UInt64)
  | .toKey _ keyOffsets kImage => if keyOffsets.length % 2 ^ 32 = 1 then none else some (kImage, keyOffsets)
  | _ => none

inductive BlackballOp
  | blackball
  | unblackball
  | query
  | clear
  deriving DecidableEq

def blackballOutput (op : BlackballOp) (st : (UInt64 × UInt64 → Bool) × Bool) (output : UInt64 × UInt64) :
    Option ((UInt64 × UInt64 → Bool) × Bool) :=
  match op with
  | .blackball => some (Function.update st.1 output true, st.2)
  -- The result of a lookup that finds nothing is not reset here.
  | .unblackball => if st.1 output then some (Function.update st.1 output false, st.2) else none
  | .query => some (st.1, st.1 output)
  | .clear => some st

def blackballWorker (db : Db) (outputs : List (UInt64 × UInt64)) (op : BlackballOp) : Option (Db × Bool) :=
  if outputs.length > 1 ∧ op = .query then none
  else (outputs.foldlM (blackballOutput op) (db.blackballs, true)).map fun st =>
    ({ db with blackballs := if op = .clear then fun _ => false else st.1 }, st.2)

inductive Call
  | addRings (vin : List TxIn)
  | setRing (keyImage : PublicKey) (outs : List UInt64) (relative : Bool)
  | removeRings (keyImages : List PublicKey)
  | removeTxRings (vin : List TxIn)
  | blackball (outputs : List (UInt64 × UInt64))
  | unblackball (outputs : List (UInt64 × UInt64))

section
variable (c : Cipher) (db : Db)

def encrypt (s : Blob) (k : PublicKey) (field : UInt8) : Blob :=
  c.makeIv k field ++ c.chacha20 (c.makeIv k field) s

def encryptKey (k : PublicKey) : Blob := encrypt c (bytesOf 32 k) k 0

def decrypt (s : Blob) (k : PublicKey) (field : UInt8) : Option Blob :=
  if s.length < 8 then none else some (c.chacha20 (c.makeIv k field) (s.drop 8))

def storeRelativeRing (k : PublicKey) (ring : List UInt64) : Db :=
  db.put (encryptKey c k) (some (encrypt c (compressRing ring v1Tag) k 1))

def removeRing (k : PublicKey) : Option Db :=
  match db.rings (encryptKey c k) with
  | none => some db
  | some data => if data.length = 0 then none else some (db.put (encryptKey c k) none)

/-- `get_ring`: `none` where it throws, and the ring if it returns true. -/
def getRing (k : PublicKey) : Option (Option (List UInt64)) :=
  match db.rings (encryptKey c k) with
  | none => some none
  | some data =>
    if data.length = 0 then none
    else (decrypt c data k 1).bind fun s =>
      match decompressRing s v1Tag with
      | some (out :: outs) => some (some (relativeOutputOffsetsToAbsolute (out :: outs)))
      | _ => (decrypt c data k 0).bind fun s =>
        (decompressRing s 0).map fun outs => some (relativeOutputOffsetsToAbsolute outs)

def call : Call → Option Db
  | .addRings vin => some ((vin.filterMap ringOf).foldl (fun db r => storeRelativeRing c db r.1 r.2) db)
  | .setRing k outs relative =>
    some (storeRelativeRing c db k (if relative then outs else absoluteOutputOffsetsToRelative outs))
  | .removeRings ks => ks.foldlM (removeRing c) db
  | .removeTxRings vin => ((vin.filterMap ringOf).map (·.1)).foldlM (removeRing c) db
  | .blackball outputs => (blackballWorker db outputs .blackball).map (·.1)
  | .unblackball outputs => (blackballWorker db outputs .unblackball).map (·.1)

def afterCall (x : Call) : Db := (call c db x).getD db

end

/-! ## A map and a set -/

structure Book where
  rings : PublicKey → Option (List UInt64)
  marked : UInt64 × UInt64 → Bool

def Book.store (b : Book) (k : PublicKey) (ring : Option (List UInt64)) : Book :=
  { b with rings := Function.update b.rings k ring }

def Book.after (b : Book) : Call → Book
  | .addRings vin =>
    (vin.filterMap ringOf).foldl (fun b r => b.store r.1 (some (relativeOutputOffsetsToAbsolute r.2))) b
  | .setRing k outs relative => b.store k (some (if relative then relativeOutputOffsetsToAbsolute outs else outs))
  | .removeRings ks => ks.foldl (fun b k => b.store k none) b
  | .removeTxRings vin => ((vin.filterMap ringOf).map (·.1)).foldl (fun b k => b.store k none) b
  | .blackball outputs => { b with marked := fun o => b.marked o || o ∈ outputs }
  | .unblackball outputs => { b with marked := fun o => b.marked o && o ∉ outputs }

/-- The rings are not empty, and in order where they are absolute; what is unmarked was marked, and is named once. -/
def Call.Fits (b : Book) : Call → Prop
  | .addRings vin => ∀ r ∈ vin.filterMap ringOf, r.2 ≠ []
  | .setRing _ outs relative => outs ≠ [] ∧ (relative = false → outs.Pairwise (· ≤ ·))
  | .unblackball outputs => outputs.Nodup ∧ ∀ o ∈ outputs, b.marked o
  | _ => True

def AllFit : Book → List Call → Prop
  | _, [] => True
  | b, x :: xs => x.Fits b ∧ AllFit (b.after x) xs

theorem length_writeVarint_pos (x : UInt64) : 0 < (writeVarint x).length := by
  unfold writeVarint writeVarintFrom
  split <;> simp

theorem decompressFrom_writeVarint {fuel : ℕ} {x : UInt64} {s : Blob} (hf : (writeVarint x ++ s).length ≤ fuel + 1)
    (tag : UInt64) : s.length ≤ fuel ∧ decompressFrom (fuel + 1) tag (writeVarint x ++ s) =
      if tag ≠ 0 then if tag ≠ x then some [] else decompressFrom fuel 0 s
      else (decompressFrom fuel 0 s).map (x :: ·) := by
  have hp := length_writeVarint_pos x
  rw [List.length_append] at hf
  constructor
  · omega
  · rw [decompressFrom, readVarint_writeVarint]
    intro hn
    rw [(List.append_eq_nil_iff.mp hn).1] at hp
    exact Nat.lt_irrefl 0 hp

theorem decompressFrom_flatMap {ring : List UInt64} {fuel : ℕ} (hf : (ring.flatMap writeVarint).length ≤ fuel) :
    decompressFrom fuel 0 (ring.flatMap writeVarint) = some ring := by
  induction ring generalizing fuel with
  | nil => rw [List.flatMap_nil, decompressFrom]
  | cons x ring ih =>
    rw [List.flatMap_cons] at hf ⊢
    cases fuel with
    | zero =>
      have hp := length_writeVarint_pos x
      rw [List.length_append] at hf
      omega
    | succ fuel =>
      obtain ⟨hs, he⟩ := decompressFrom_writeVarint hf 0
      rw [he, ih hs]
      rfl

theorem decompressRing_compressRing (ring : List UInt64) :
    decompressRing (compressRing ring v1Tag) v1Tag = some ring := by
  have hp := length_writeVarint_pos v1Tag
  obtain ⟨m, hm⟩ : ∃ m, (writeVarint v1Tag ++ ring.flatMap writeVarint).length = m + 1 :=
    Nat.exists_eq_succ_of_ne_zero (by rw [List.length_append]; omega)
  obtain ⟨hs, he⟩ := decompressFrom_writeVarint hm.le v1Tag
  rw [decompressRing, compressRing, hm, he, decompressFrom_flatMap hs]
  rfl

theorem absoluteFrom_zipWith (last : UInt64) (l : List UInt64) :
    absoluteFrom last (List.zipWith (· - ·) l (last :: l)) = l := by
  induction l generalizing last with
  | nil => rfl
  | cons x l ih =>
    have hx : last + (x - last) = x := by
      rw [UInt64.add_comm, UInt64.sub_add_cancel]
    rw [List.zipWith_cons_cons, absoluteFrom, hx, ih]

theorem absolute_of_relative {l : List UInt64} (hl : l.Pairwise (· ≤ ·)) :
    relativeOutputOffsetsToAbsolute (absoluteOutputOffsetsToRelative l) = l := by
  have hs : l.mergeSort (· ≤ ·) = l := List.mergeSort_of_pairwise (by simpa using hl)
  rw [absoluteOutputOffsetsToRelative, hs]
  exact absoluteFrom_zipWith 0 l

section
variable {c : Cipher} {db : Db} {b : Book} {k : PublicKey}

theorem decrypt_encrypt (s : Blob) (field : UInt8) : decrypt c (encrypt c s k field) k field = some s := by
  have hl := c.length_makeIv k field
  rw [decrypt, encrypt, if_neg (by rw [List.length_append]; omega), List.drop_left' hl, c.chacha20_chacha20]

theorem encryptKey_inj {k' : PublicKey} (h : encryptKey c k = encryptKey c k') : k = k' := by
  obtain ⟨hi, hs⟩ := List.append_inj h (by rw [c.length_makeIv, c.length_makeIv])
  rw [hi] at hs
  have he := congrArg (c.chacha20 (c.makeIv k' 0)) hs
  rw [c.chacha20_chacha20, c.chacha20_chacha20] at he
  exact @bytesOf_injective 32 k k' he

/-- The tables hold the rings of `b` as relative offsets, compressed and encrypted, and its outputs. -/
structure Refines (c : Cipher) (db : Db) (b : Book) : Prop where
  rings : ∀ k, ∃ r : Option (List UInt64), (∀ ring ∈ r, ring ≠ []) ∧
    db.rings (encryptKey c k) = r.map (fun ring => encrypt c (compressRing ring v1Tag) k 1) ∧
    b.rings k = r.map relativeOutputOffsetsToAbsolute
  marked : db.blackballs = b.marked

section
variable (h : Refines c db b)
include h

theorem Refines.put (k : PublicKey) {r : Option (List UInt64)} (hr : ∀ ring ∈ r, ring ≠ []) :
    Refines c (db.put (encryptKey c k) (r.map fun ring => encrypt c (compressRing ring v1Tag) k 1))
      (b.store k (r.map relativeOutputOffsetsToAbsolute)) where
  rings j := by
    by_cases hj : j = k
    · subst hj
      exact ⟨r, hr, Function.update_self .., Function.update_self ..⟩
    · obtain ⟨q, hq, hd, hb⟩ := h.rings j
      have he : encryptKey c j ≠ encryptKey c k := fun he => hj (encryptKey_inj he)
      exact ⟨q, hq, (Function.update_of_ne he ..).trans hd, (Function.update_of_ne hj ..).trans hb⟩
  marked := h.marked

theorem Refines.data_ne {data : Blob} (hd : db.rings (encryptKey c k) = some data) : data.length ≠ 0 := by
  obtain ⟨r, -, hr, -⟩ := h.rings k
  obtain ⟨ring, -, rfl⟩ := Option.map_eq_some_iff.mp (hr.symm.trans hd)
  rw [encrypt, List.length_append, c.length_makeIv]
  omega

theorem Refines.removeRing (k : PublicKey) : ∃ db', removeRing c db k = some db' ∧ Refines c db' (b.store k none) := by
  have hp := @Refines.put _ _ _ h k none (by simp)
  unfold RingDb.removeRing
  split
  next hd =>
    have he : db.put (encryptKey c k) none = db := by rw [Db.put, ← hd, Function.update_eq_self]
    rw [Option.map_none, he] at hp
    exact ⟨db, rfl, hp⟩
  next data hd =>
    rw [if_neg (h.data_ne hd)]
    exact ⟨_, rfl, hp⟩

theorem Refines.getRing (k : PublicKey) : getRing c db k = some (b.rings k) := by
  obtain ⟨r, hn, hd, hb⟩ := h.rings k
  unfold RingDb.getRing
  cases r with
  | none => rw [hd, hb]; rfl
  | some ring =>
    rw [Option.map_some] at hd
    rw [hd, hb]
    simp only [if_neg (h.data_ne hd), decrypt_encrypt, Option.bind_some, decompressRing_compressRing]
    obtain ⟨x, xs, rfl⟩ := List.exists_cons_of_ne_nil (hn ring rfl)
    rfl

theorem Refines.removeRings (ks : List PublicKey) :
    ∃ db', ks.foldlM (RingDb.removeRing c) db = some db' ∧ Refines c db' (ks.foldl (fun b k => b.store k none) b) := by
  induction ks generalizing db b with
  | nil => exact ⟨db, rfl, h⟩
  | cons k ks ih =>
    obtain ⟨d, hd, hb⟩ := h.removeRing k
    obtain ⟨db', hs, hb'⟩ := ih hb
    exact ⟨db', by rw [List.foldlM_cons, hd]; exact hs, hb'⟩

theorem Refines.addRings {rs : List (PublicKey × List UInt64)} (hr : ∀ r ∈ rs, r.2 ≠ []) :
    Refines c (rs.foldl (fun db r => storeRelativeRing c db r.1 r.2) db)
      (rs.foldl (fun b r => b.store r.1 (some (relativeOutputOffsetsToAbsolute r.2))) b) := by
  induction rs generalizing db b with
  | nil => exact h
  | cons r rs ih =>
    have hp := @Refines.put _ _ _ h r.1 (some r.2) (by simpa using hr r List.mem_cons_self)
    exact ih hp fun q hq => hr q (List.mem_cons_of_mem r hq)

end

theorem foldlM_blackball (balls : UInt64 × UInt64 → Bool) (ret : Bool) (outputs : List (UInt64 × UInt64)) :
    outputs.foldlM (blackballOutput .blackball) (balls, ret) = some (fun o => balls o || o ∈ outputs, ret) := by
  induction outputs generalizing balls with
  | nil => simp
  | cons o os ih =>
    refine (ih _).trans ?_
    congr 2
    funext q
    by_cases hq : q = o <;> simp [hq]

/-- Every output has to be marked when its turn comes. -/
theorem foldlM_unblackball (balls : UInt64 × UInt64 → Bool) (ret : Bool) (outputs : List (UInt64 × UInt64)) :
    outputs.foldlM (blackballOutput .unblackball) (balls, ret) =
      if outputs.Nodup ∧ ∀ o ∈ outputs, balls o then some (fun o => balls o && o ∉ outputs, ret) else none := by
  induction outputs generalizing balls with
  | nil => simp
  | cons o os ih =>
    rw [List.foldlM_cons]
    by_cases ho : balls o
    · have hs : blackballOutput .unblackball (balls, ret) o = some (Function.update balls o false, ret) := if_pos ho
      have hc : (os.Nodup ∧ ∀ q ∈ os, Function.update balls o false q) ↔
          (o :: os).Nodup ∧ ∀ q ∈ o :: os, balls q := by
        grind
      have hf : (fun q => Function.update balls o false q && q ∉ os) = fun q => balls q && q ∉ o :: os := by
        funext q
        by_cases hq : q = o <;> simp [hq]
      rw [hs, Option.bind_eq_bind, Option.bind_some, ih, hf]
      simp only [hc]
    · simp [blackballOutput, ho]

theorem unblackball_eq (db : Db) (outputs : List (UInt64 × UInt64)) : call c db (.unblackball outputs) =
    if outputs.Nodup ∧ ∀ o ∈ outputs, db.blackballs o then
      some { db with blackballs := fun o => db.blackballs o && o ∉ outputs } else none := by
  simp only [call, blackballWorker, reduceCtorEq, and_false, if_false, foldlM_unblackball]
  split <;> rfl

theorem Refines.after (h : Refines c db b) {x : Call} (hx : x.Fits b) :
    ∃ db', call c db x = some db' ∧ Refines c db' (b.after x) := by
  cases x with
  | addRings vin => exact ⟨_, rfl, h.addRings hx⟩
  | setRing k outs relative =>
    obtain ⟨ho, hs⟩ := hx
    refine ⟨_, rfl, ?_⟩
    cases relative with
    | true => exact @Refines.put _ _ _ h k (some outs) (by simpa using ho)
    | false =>
      have ha := absolute_of_relative (hs rfl)
      have hn : absoluteOutputOffsetsToRelative outs ≠ [] := by
        intro he
        rw [he] at ha
        exact ho ha.symm
      have hp := @Refines.put _ _ _ h k (some (absoluteOutputOffsetsToRelative outs)) (by simpa using hn)
      rw [Option.map_some, Option.map_some, ha] at hp
      exact hp
  | removeRings ks => exact h.removeRings ks
  | removeTxRings vin => exact h.removeRings _
  | blackball outputs =>
    refine ⟨{ db with blackballs := fun o => db.blackballs o || o ∈ outputs }, ?_, h.rings, ?_⟩
    · simp [call, blackballWorker, foldlM_blackball]
    · rw [h.marked]
      rfl
  | unblackball outputs =>
    rw [unblackball_eq, h.marked]
    exact ⟨_, if_pos hx, h.rings, rfl⟩

theorem Refines.run (h : Refines c db b) {xs : List Call} (hx : AllFit b xs) :
    Refines c (xs.foldl (afterCall c) db) (xs.foldl Book.after b) := by
  induction xs generalizing db b with
  | nil => exact h
  | cons x xs ih =>
    obtain ⟨db', hd, hb⟩ := h.after hx.1
    rw [List.foldl_cons, afterCall, hd]
    exact ih hb hx.2

end

def Db.empty : Db := ⟨fun _ => none, fun _ => false⟩

def Book.empty : Book := ⟨fun _ => none, fun _ => false⟩

def plainCipher : Cipher where
  makeIv _ _ := List.replicate 8 0
  chacha20 _ s := s
  length_makeIv _ _ := rfl
  chacha20_chacha20 _ _ := rfl

def someCalls : List Call :=
  [.addRings [.toKey 0 [3, 4] 1, .toKey 0 [9] 2], .setRing 3 [5, 9] false, .removeRings [2, 3], .blackball [(0, 1), (0, 2)],
    .unblackball [(0, 1)]]

end Gyro.Wallet.RingDb
