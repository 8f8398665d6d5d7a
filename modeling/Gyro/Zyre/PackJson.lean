import Mathlib

/-!
# JSON and MessagePack

`json2pack` and `pack2json` (`zyre/packjson.cpp`). MessagePack wants the number of elements before
them, so every open container has its bytes on a stack of their own. The reader and writer of rapidjson
and the packer and parser of msgpack are parameters; what each says about a document is a `Format`.
-/

namespace Gyro.Zyre.PackJson

abbrev Bytes := List UInt8

/-- A JSON document without floating-point numbers. -/
inductive Doc
  | null
  | bool (v : Bool)
  | int (v : Int)
  | str (v : Bytes)
  | arr (n : ℕ) (items : Fin n → Doc)
  | obj (n : ℕ) (keys : Fin n → Bytes) (values : Fin n → Doc)

/-- What stands for the parts of a document: calls, or bytes. -/
structure Format (β : Type) where
  null : List β
  bool : Bool → List β
  int : Int → List β
  str : Bytes → List β
  item : List β → List β
  arr : ℕ → List β → List β
  member : Bytes → List β → List β
  obj : ℕ → List β → List β

def Doc.write {β : Type} (f : Format β) : Doc → List β
  | .null => f.null
  | .bool v => f.bool v
  | .int v => f.int v
  | .str v => f.str v
  | .arr n items => f.arr n ((List.finRange n).flatMap fun i => f.item ((items i).write f))
  | .obj n keys values => f.obj n ((List.finRange n).flatMap fun i => f.member (keys i) ((values i).write f))

/-! ## From JSON -/

/-- What `rapidjson::Reader` calls. -/
inductive ReaderCall
  | null | bool (v : Bool) | int (v : Int) | uint (v : Int) | int64 (v : Int) | uint64 (v : Int)
  | string (str : Bytes) | startObject | key (str : Bytes) | endObject (memberCount : ℕ) | startArray
  | endArray (elementCount : ℕ)
  deriving DecidableEq

def readerFormat : Format ReaderCall where
  null := [.null]
  bool v := [.bool v]
  int v := [if v < -2 ^ 31 then .int64 v else if v < 0 then .int v else if v < 2 ^ 32 then .uint v else .uint64 v]
  str v := [.string v]
  item v := v
  arr n items := .startArray :: items ++ [.endArray n]
  member k v := .key k :: v
  obj n members := .startObject :: members ++ [.endObject n]

/-- What `msgpack::parse` calls. -/
inductive Visit
  | nil | boolean (v : Bool) | positiveInteger (v : ℕ) | negativeInteger (v : Int) | str (v : Bytes)
  | bin (v : Bytes) | ext (v : Bytes) | startArray (n : ℕ) | startArrayItem | endArrayItem | endArray
  | startMap (n : ℕ) | startMapKey | endMapKey | startMapValue | endMapValue | endMap

/-- The packer, which takes an integer of any type, and the parser, which moves the offset. -/
structure Msgpack where
  packNil : Bytes
  packBool : Bool → Bytes
  packInt : Int → Bytes
  packStr : ℕ → Bytes
  packArray : ℕ → Bytes
  packMap : ℕ → Bytes
  parse : Bytes → ℕ → Option (List Visit × ℕ)

def packFormat (m : Msgpack) : Format UInt8 where
  null := m.packNil
  bool := m.packBool
  int := m.packInt
  str v := m.packStr v.length ++ v
  item v := v
  arr n items := m.packArray n ++ items
  member k v := m.packStr k.length ++ k ++ v
  obj n members := m.packMap n ++ members

def put (b : Bytes) : List Bytes → List Bytes
  | [] => []
  | top :: rest => (top ++ b) :: rest

/-- `EndObject` and `EndArray`: the count goes in front of what the container holds. -/
def close (count : Bytes) : List Bytes → List Bytes
  | [] => []
  | arr :: rest => put arr (put count rest)

def readerStep (m : Msgpack) (stack : List Bytes) : ReaderCall → List Bytes
  | .null => put m.packNil stack
  | .bool v => put (m.packBool v) stack
  | .int v | .uint v | .int64 v | .uint64 v => put (m.packInt v) stack
  | .string str | .key str => put str (put (m.packStr str.length) stack)
  | .startObject | .startArray => [] :: stack
  | .endObject n => close (m.packMap n) stack
  | .endArray n => close (m.packArray n) stack

/-- What `rapidjson::Writer` is called with. -/
inductive WriterCall
  | null | bool (v : Bool) | uint (v : UInt8) | uint64 (v : ℕ) | int64 (v : Int) | string (v : Bytes)
  | key (v : Bytes) | startArray | endArray | startObject | endObject
  deriving DecidableEq

/-- The calls for a text, and the text of some calls. -/
structure RapidJson where
  read : Bytes → Option (List ReaderCall)
  text : List WriterCall → Bytes

/-- A `const char*` ends at its first zero. -/
def cString (s : Bytes) : Bytes := s.takeWhile (· ≠ 0)

def json2pack (json : RapidJson) (m : Msgpack) (data : Bytes) : Option Bytes :=
  (json.read (cString data)).map fun calls => (calls.foldl (readerStep m) [[]]).headD []

/-! ## To JSON -/

def visitFormat : Format Visit where
  null := [.nil]
  bool v := [.boolean v]
  int v := [if 0 ≤ v then .positiveInteger v.toNat else .negativeInteger v]
  str v := [.str v]
  item v := .startArrayItem :: v ++ [.endArrayItem]
  arr n items := .startArray n :: items ++ [.endArray]
  member k v := [.startMapKey, .str k, .endMapKey, .startMapValue] ++ v ++ [.endMapValue]
  obj n members := .startMap n :: members ++ [.endMap]

def writerFormat : Format WriterCall where
  null := [.null]
  bool v := [.bool v]
  int v := [if 0 ≤ v then .uint64 v.toNat else .int64 v]
  str v := [.string v]
  item v := v
  arr _ items := .startArray :: items ++ [.endArray]
  member k v := .key k :: v
  obj _ members := .startObject :: members ++ [.endObject]

/-- The visitor: whether a key is expected, and the calls made. -/
def visit : Bool × List WriterCall → Visit → Bool × List WriterCall
  | (key, calls), .nil => (key, calls ++ [.null])
  | (key, calls), .boolean v => (key, calls ++ [.bool v])
  | (key, calls), .positiveInteger v => (key, calls ++ [.uint64 v])
  | (key, calls), .negativeInteger v => (key, calls ++ [.int64 v])
  | (key, calls), .str v => (key, calls ++ [if key then .key v else .string v])
  | (key, calls), .bin v | (key, calls), .ext v => (key, calls ++ .startArray :: v.map .uint ++ [.endArray])
  | (key, calls), .startArray _ => (key, calls ++ [.startArray])
  | (key, calls), .endArray => (key, calls ++ [.endArray])
  | (key, calls), .startMap _ => (key, calls ++ [.startObject])
  | (_, calls), .startMapKey => (true, calls)
  | (_, calls), .endMapKey => (false, calls)
  | (key, calls), .endMap => (key, calls ++ [.endObject])
  | s, .startArrayItem | s, .endArrayItem | s, .startMapValue | s, .endMapValue => s

def pack2json (json : RapidJson) (m : Msgpack) (data : Bytes) (off : ℕ) : Option (ℕ × Bytes) :=
  (m.parse data off).map fun (visits, off) => (off, cString (json.text (visits.foldl visit (false, [])).2))

/-! ## A document survives -/

section
variable {ρ σ β γ : Type} {step : σ → β → σ} {state : ρ → List γ → σ} {f : Format β} {g : Format γ}

/-- In whatever state, the calls `xs` put `ys` at the end of the output. -/
def Emits (step : σ → β → σ) (state : ρ → List γ → σ) (xs : List β) (ys : List γ) : Prop :=
  ∀ r out, xs.foldl step (state r out) = state r (out ++ ys)

theorem Emits.flatMap {ι : Type} {xs : ι → List β} {ys : ι → List γ} (h : ∀ i, Emits step state (xs i) (ys i)) (is : List ι) :
    Emits step state (is.flatMap xs) (is.flatMap ys) := by
  intro r out
  induction is generalizing out with
  | nil => simp
  | cons i is ih => rw [List.flatMap_cons, List.foldl_append, h, ih, List.flatMap_cons, List.append_assoc]

/-- What the parts of a document emit gives what the whole emits. -/
structure Translates (step : σ → β → σ) (state : ρ → List γ → σ) (f : Format β) (g : Format γ) : Prop where
  null : Emits step state f.null g.null
  bool v : Emits step state (f.bool v) (g.bool v)
  int v : Emits step state (f.int v) (g.int v)
  str v : Emits step state (f.str v) (g.str v)
  item {xs ys} : Emits step state xs ys → Emits step state (f.item xs) (g.item ys)
  arr n {xs ys} : Emits step state xs ys → Emits step state (f.arr n xs) (g.arr n ys)
  member k {xs ys} : Emits step state xs ys → Emits step state (f.member k xs) (g.member k ys)
  obj n {xs ys} : Emits step state xs ys → Emits step state (f.obj n xs) (g.obj n ys)

theorem Translates.write (h : Translates step state f g) (d : Doc) : Emits step state (d.write f) (d.write g) := by
  induction d with
  | null => exact h.null
  | bool v => exact h.bool v
  | int v => exact h.int v
  | str v => exact h.str v
  | arr n items ih => exact h.arr n (.flatMap (fun i => h.item (ih i)) _)
  | obj n keys values ih => exact h.obj n (.flatMap (fun i => h.member (keys i) (ih i)) _)

end

/-- A container is filled on top of the stack, and closed into what was there before. -/
theorem readerStep_translates (m : Msgpack) :
    Translates (readerStep m) (fun rest top => top :: rest) readerFormat (packFormat m) where
  null _ _ := rfl
  bool _ _ _ := rfl
  int v rest top := by
    simp only [readerFormat, packFormat]
    split_ifs <;> rfl
  str v rest top := by simp [readerFormat, packFormat, readerStep, put]
  item h := h
  arr n xs ys h rest top := by
    have := h (top :: rest) []
    simp_all [readerFormat, packFormat, readerStep, close, put]
  member k xs ys h rest top := by simp [readerFormat, packFormat, readerStep, put, h rest _]
  obj n xs ys h rest top := by
    have := h (top :: rest) []
    simp_all [readerFormat, packFormat, readerStep, close, put]

theorem visit_translates : Translates visit (fun (_ : Unit) calls => (false, calls)) visitFormat writerFormat where
  null _ _ := rfl
  bool _ _ _ := rfl
  int v _ calls := by
    simp only [visitFormat, writerFormat]
    split_ifs <;> rfl
  str _ _ _ := rfl
  item h _ calls := by simp [visitFormat, writerFormat, visit, h () _]
  arr n xs ys h _ calls := by simp [visitFormat, writerFormat, visit, h () _]
  member k xs ys h _ calls := by simp [visitFormat, writerFormat, visit, h () _]
  obj n xs ys h _ calls := by simp [visitFormat, writerFormat, visit, h () _]

/-- The pack of a document is read back as the document in compact form, to its end. -/
theorem json_pack_inverse {json : RapidJson} {m : Msgpack} {d : Doc} {data : Bytes}
    (hdata : 0 ∉ data) (hread : json.read data = some (d.write readerFormat))
    (hparse : m.parse (d.write (packFormat m)) 0 = some (d.write visitFormat, (d.write (packFormat m)).length))
    (hescaped : 0 ∉ json.text (d.write writerFormat)) :
    ∃ out, json2pack json m data = some out ∧
      pack2json json m out 0 = some (out.length, json.text (d.write writerFormat)) := by
  have hc : ∀ s : Bytes, 0 ∉ s → cString s = s := by
    intro s hs
    apply List.takeWhile_eq_self_iff.mpr
    intro b hb
    simpa using ne_of_mem_of_not_mem hb hs
  refine ⟨d.write (packFormat m), ?_, ?_⟩
  · have hp := (readerStep_translates m).write d [] []
    simp only [json2pack, hc data hdata, hread, Option.map_some, hp]
    rfl
  · have hv := visit_translates.write d () []
    simp only [pack2json, hparse, Option.map_some, hv, List.nil_append, hc _ hescaped]

def smallText : Bytes := [0x7b, 0x22, 0x61, 0x22, 0x3a, 0x5b, 0x2d, 0x31, 0x5d, 0x7d]

/-- The text `{"a":[-1]}`, its calls and its pack. -/
def smallJson : RapidJson where
  read s := if s = smallText then some [.startObject, .key [0x61], .startArray, .int (-1), .endArray 1, .endObject 1] else none
  text calls := if calls = [.startObject, .key [0x61], .startArray, .int64 (-1), .endArray, .endObject] then smallText else []

def smallMsgpack : Msgpack where
  packNil := [0xc0]
  packBool v := [if v then 0xc3 else 0xc2]
  packInt v := [UInt8.ofNat (v % 256).toNat]
  packStr n := [UInt8.ofNat (0xa0 + n)]
  packArray n := [UInt8.ofNat (0x90 + n)]
  packMap n := [UInt8.ofNat (0x80 + n)]
  parse data off := if data = [0x81, 0xa1, 0x61, 0x91, 0xff] ∧ off = 0 then some ([.startMap 1, .startMapKey, .str [0x61],
    .endMapKey, .startMapValue, .startArray 1, .startArrayItem, .negativeInteger (-1), .endArrayItem, .endArray,
    .endMapValue, .endMap], 5) else none

def smallDoc : Doc := .obj 1 ![[0x61]] ![.arr 1 ![.int (-1)]]

theorem json_pack_inverse_small : smallJson.text (smallDoc.write writerFormat) = smallText ∧
    ∃ out, json2pack smallJson smallMsgpack smallText = some out ∧
      pack2json smallJson smallMsgpack out 0 = some (out.length, smallJson.text (smallDoc.write writerFormat)) :=
  ⟨by rfl, json_pack_inverse (by decide) (by rfl) (by rfl) (by decide)⟩

end Gyro.Zyre.PackJson
