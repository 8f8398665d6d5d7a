import Gyro.Types

/-!
# The embedded web server

`http::server::on_http` (`zyre/http.cpp`) appends what a client asks for to the document root
and opens the file of that name. Paths are resolved by their components, without links.
-/

namespace Gyro.Zyre.Http

open List

def slash : UInt8 := 47
def dots : Blob := [46, 46]

/-- Walks through the components of a path, `name` being what has been read of the first one. -/
def walk {σ : Type} (enter : σ → Blob → σ) : σ → Blob → Blob → σ
  | s, name, [] => enter s name
  | s, name, b :: rest => if b = slash then walk enter (enter s name) [] rest else walk enter s (name ++ [b]) rest

def enter (dir : List Blob) (name : Blob) : List Blob :=
  if name = [] ∨ name = [46] then dir else if name = dots then dir.dropLast else dir ++ [name]

def resolve (cwd : List Blob) (path : Blob) : List Blob :=
  walk enter (if path.head? = some slash then [] else cwd) [] path

def docrootOf (docroot : Blob) : Blob := if docroot.getLast? = some slash then docroot else docroot ++ [slash]

/-- What is appended to the document root; `none` where `substr` throws. -/
def target (resource : Blob) : Option Blob :=
  if resource = [slash] then some [105, 110, 100, 101, 120, 46, 104, 116, 109, 108]
  else if resource = [] then none
  else some (resource.drop 1)

inductive Response where
  | notFound (filename : Blob)
  | ok (body : Blob)
  | threw
  deriving DecidableEq

/-- The path opened: the name goes to the system as a C string. -/
def opened (cwd : List Blob) (docroot name : Blob) : List Blob := resolve cwd ((docroot ++ name).takeWhile (· ≠ 0))

def onHttp (files : List Blob → Option Blob) (cwd : List Blob) (docroot resource : Blob) : Response :=
  match target resource with
  | none => .threw
  | some name =>
    match files (opened cwd docroot name) with
    | none => .notFound (docroot ++ name)
    | some body => .ok body

/-- The file opened is below the document root, and the response depends on no other files. -/
structure Confined (cwd : List Blob) (docroot resource : Blob) : Prop where
  inside : ∀ name ∈ target resource, resolve cwd docroot <+: opened cwd docroot name
  blind : ∀ files files', (∀ path, resolve cwd docroot <+: path → files path = files' path) →
    onHttp files cwd docroot resource = onHttp files' cwd docroot resource

structure Relative where
  ups : Nat
  names : List Blob
  deriving DecidableEq

def Relative.enter (r : Relative) (name : Blob) : Relative :=
  if name = [] ∨ name = [46] then r
  else if name = dots then if r.names = [] then ⟨r.ups + 1, []⟩ else ⟨r.ups, r.names.dropLast⟩
  else ⟨r.ups, r.names ++ [name]⟩

def relative (path : Blob) : Relative := walk Relative.enter ⟨0, []⟩ [] path

def Relative.from (r : Relative) (dir : List Blob) : List Blob := dir.take (dir.length - r.ups) ++ r.names

/-- The request goes up no further than its names lead back, along the way to the document root. -/
def ComesBack (root : List Blob) (name : Blob) : Prop :=
  let request := relative (name.takeWhile (· ≠ 0))
  root.drop (root.length - request.ups) <+: request.names

instance (root : List Blob) (name : Blob) : Decidable (ComesBack root name) :=
  inferInstanceAs (Decidable (_ <+: _))

theorem walk_append {σ : Type} (enter : σ → Blob → σ) (s : σ) (name path rest : Blob) :
    walk enter s name (path ++ slash :: rest) = walk enter (walk enter s name path) [] rest := by
  induction path generalizing s name with
  | nil => simp [walk]
  | cons b path ih =>
    simp only [cons_append, walk]
    split <;> exact ih _ _

theorem Relative.from_enter (r : Relative) (dir : List Blob) (name : Blob) :
    (r.enter name).from dir = Http.enter (r.from dir) name := by
  unfold Relative.enter Http.enter Relative.from
  split
  · rfl
  split
  · by_cases hn : r.names = []
    · simp [hn, dropLast_eq_take, take_take]
      omega
    · simp [hn, dropLast_append_of_ne_nil]
  · simp

theorem walk_from (r : Relative) (dir : List Blob) (name path : Blob) :
    walk Http.enter (r.from dir) name path = (walk Relative.enter r name path).from dir := by
  induction path generalizing r name with
  | nil => exact (r.from_enter dir name).symm
  | cons b path ih =>
    simp only [walk]
    split
    · rw [← r.from_enter, ih]
    · exact ih r _

theorem exists_docrootOf (docroot : Blob) : ∃ dir, docrootOf docroot = dir ++ [slash] := by
  unfold docrootOf
  split
  case isTrue h => exact getLast?_eq_some_iff.mp h
  case isFalse => exact ⟨_, rfl⟩

theorem resolve_docroot (cwd : List Blob) (docroot rest : Blob) :
    resolve cwd (docrootOf docroot ++ rest) = (relative rest).from (resolve cwd (docrootOf docroot)) := by
  obtain ⟨dir, hd⟩ := exists_docrootOf docroot
  have hr (s : List Blob) : walk enter s [] (dir ++ [slash]) = walk enter s [] dir := by
    rw [walk_append]
    simp [walk, enter]
  rw [hd, resolve, append_assoc, singleton_append, walk_append, resolve, hr]
  simpa [Relative.from, relative] using walk_from ⟨0, []⟩ (walk enter _ [] dir) [] rest

theorem inside_iff (r : Relative) (dir : List Blob) : dir <+: r.from dir ↔ dir.drop (dir.length - r.ups) <+: r.names := by
  have hs : dir.take (dir.length - r.ups) ++ dir.drop (dir.length - r.ups) <+: r.from dir ↔ _ :=
    prefix_append_right_inj _
  rwa [take_append_drop] at hs

theorem takeWhile_docroot {docroot : Blob} (hzero : 0 ∉ docroot) (rest : Blob) :
    (docrootOf docroot ++ rest).takeWhile (· ≠ 0) = docrootOf docroot ++ rest.takeWhile (· ≠ 0) := by
  apply takeWhile_append_of_pos
  intro b hb
  have hc : b ∈ docroot ∨ b = slash := by
    unfold docrootOf at hb
    split at hb
    · exact Or.inl hb
    · simpa using hb
  rcases hc with hb | rfl
  · simpa using fun h : b = 0 => hzero (h ▸ hb)
  · decide

theorem opened_docroot {docroot : Blob} (hzero : 0 ∉ docroot) (cwd : List Blob) (name : Blob) :
    opened cwd (docrootOf docroot) name =
      (relative (name.takeWhile (· ≠ 0))).from (resolve cwd (docrootOf docroot)) := by
  rw [opened, takeWhile_docroot hzero, resolve_docroot]

end Gyro.Zyre.Http
