import Gyro.Zyre.LevelDb

/-!
# Layers of a database

`lldb::db_layer<L>` shares a LevelDB with other layers, its own byte in front of every key.
The prefix is set by the base class when a database is opened or attached.
-/

namespace Gyro.Zyre

open KeyValue List

inductive LayerOp where
  | open (path : Blob)
  | openKey (path : Blob) (key : Key)
  /-- `attach`, with or without a key; the object may be null. -/
  | attach (p : Option Db) (key : Key)
  | get (key : Key)
  | put (key : Key) (val : Blob)
  | del (key : Key)
  | skip (step : Int) (pfx : Key) (iteratorClear : Bool)

structure Layered where
  disks : Blob → Store Blob
  layer : Db

namespace Layered

/-- `__open`. A database that cannot be opened leaves the one held before. -/
def reopen (opens : Blob → Bool) (path : Blob) (d : Db) : Db :=
  { d with path := path, handle := if path ≠ [] ∧ opens path then some path else d.handle }

def write (w : Layered) (disk : Blob) (s : Store Blob) : Layered := { w with disks := Function.update w.disks disk s }

def step (opens : Blob → Bool) (w : Layered) : LayerOp → Layered × List Key
  | .open path => ({ w with layer := reopen opens path w.layer }, [])
  | .openKey path key => ({ w with layer := reopen opens path { w.layer with pre := key } }, [])
  | .attach p key =>
    match p with
    | some ⟨path, pre, some disk, _⟩ =>
      ({ w with layer := { w.layer with path := path, pre := pre ++ key, handle := some disk } }, [])
    | _ => (w, [])
  | op =>
    match w.layer.handle with
    | none => (w, [])
    | some disk =>
      match op with
      | .put key val => (w.write disk ((w.disks disk).put (w.layer.pre ++ key) val), [w.layer.pre ++ key])
      | .del key =>
        (w.write disk ⟨(w.disks disk).entries.filter (·.1 ≠ w.layer.pre ++ key), (w.disks disk).sorted.filter _⟩,
          [w.layer.pre ++ key])
      | .skip step pfx clear =>
        let (layer, e) := w.layer.skip (w.disks disk).entries step pfx clear
        ({ w with layer := layer }, e.toList.map (layer.pre ++ ·.1))
      | .get key => (w, [w.layer.pre ++ key])
      | _ => (w, [])

def run (opens : Blob → Bool) (w : Layered) : List LayerOp → Layered × List Key
  | [] => (w, [])
  | op :: ops =>
    let (w', keys) := w.step opens op
    let (w'', keys') := run opens w' ops
    (w'', keys ++ keys')

end Layered

def LayerOp.isData : LayerOp → Bool
  | .open _ | .openKey .. | .attach .. => false
  | _ => true

/-- What is opened or attached brings a prefix that begins with the layer's byte. -/
def LayerOp.Keeps (L : UInt8) : LayerOp → Prop
  | .openKey _ key => [L] <+: key
  | .attach p key => ∀ d ∈ p, d.handle.isSome → [L] <+: d.pre ++ key
  | _ => True

/-- All keys are in the layer, and no record outside of it has changed. -/
structure Isolated (L : UInt8) (w : Layered) (r : Layered × List Key) : Prop where
  keys : ∀ key ∈ r.2, [L] <+: key
  frame : ∀ path key, ¬ [L] <+: key → (r.1.disks path).get? key = (w.disks path).get? key

variable {L : UInt8} {opens : Blob → Bool} {w : Layered} {op : LayerOp} {ops : List LayerOp}

theorem get?_filter_ne {s : Store Blob} {k k' : Key} (hn : k' ≠ k) :
    Store.get? ⟨s.entries.filter (·.1 ≠ k), s.sorted.filter _⟩ k' = s.get? k' := by
  apply Option.ext
  intro v
  simp [Store.get?_eq_some_iff, hn]

theorem isSome_reopen {d : Db} (hd : d.handle.isSome) (path : Blob) : (Layered.reopen opens path d).handle.isSome := by
  unfold Layered.reopen
  split <;> simp [hd]

structure Layered.Held (L : UInt8) (w : Layered) : Prop where
  opened : w.layer.handle.isSome
  pre : [L] <+: w.layer.pre

theorem Layered.Held.step (h : w.Held L) (hkee : op.Keeps L) :
    (w.step opens op).1.Held L ∧ Isolated L w (w.step opens op) := by
  obtain ⟨disk, hd⟩ := Option.isSome_iff_exists.mp h.opened
  have hke (key : Key) : [L] <+: w.layer.pre ++ key := h.pre.trans (prefix_append _ _)
  -- Only records with a key in the layer are written.
  have hwr (s : Store Blob) (key : Key)
      (hs : ∀ k, k ≠ w.layer.pre ++ key → s.get? k = (w.disks disk).get? k) :
      (w.write disk s).Held L ∧ Isolated L w (w.write disk s, [w.layer.pre ++ key]) := by
    refine ⟨⟨h.opened, h.pre⟩, by simpa using hke key, fun path k hk => ?_⟩
    by_cases ha : path = disk
    · subst ha
      simpa [write] using hs k fun heq => hk (heq ▸ hke key)
    · simp [write, ha]
  have hr (layer : Db) (hl : layer.handle.isSome) (hp : [L] <+: layer.pre) (keys : List Key)
      (hy : ∀ key ∈ keys, [L] <+: key) :
      Layered.Held L { w with layer := layer } ∧ Isolated L w ({ w with layer := layer }, keys) :=
    ⟨⟨hl, hp⟩, hy, fun _ _ _ => rfl⟩
  cases op with
  | «open» path => exact hr _ (isSome_reopen h.opened path) h.pre [] (by simp)
  | openKey path key => exact hr _ (isSome_reopen (d := { w.layer with pre := key }) h.opened path) hkee [] (by simp)
  | attach p key =>
    rcases p with _ | ⟨path, pre, _ | disk', _⟩
    · exact hr _ h.opened h.pre [] (by simp)
    · exact hr _ h.opened h.pre [] (by simp)
    · exact hr _ rfl (hkee _ rfl rfl) [] (by simp)
  | get key =>
    simp only [Layered.step, hd]
    exact hr _ h.opened h.pre _ (by simpa using hke key)
  | put key val =>
    simp only [Layered.step, hd]
    exact hwr _ key fun k hk => Store.get?_put_of_ne hk
  | del key =>
    simp only [Layered.step, hd]
    exact hwr _ key fun k hk => get?_filter_ne hk
  | skip step pfx clear =>
    have hp := skip_pre w.layer (w.disks disk).entries step pfx clear
    have hh := skip_handle w.layer (w.disks disk).entries step pfx clear
    simp only [Layered.step, hd]
    apply hr _ (hh ▸ h.opened) (hp ▸ h.pre)
    intro key hk'
    obtain ⟨e, -, rfl⟩ := mem_map.mp hk'
    exact hp ▸ hke e.1

theorem Layered.Held.run (h : w.Held L) (hkee : ∀ op ∈ ops, op.Keeps L) :
    (w.run opens ops).1.Held L ∧ Isolated L w (w.run opens ops) := by
  induction ops generalizing w with
  | nil => exact ⟨h, by simp [Layered.run], fun _ _ _ => rfl⟩
  | cons op ops ih =>
    obtain ⟨ho, hs⟩ := forall_mem_cons.mp hkee
    obtain ⟨ht, hi⟩ : (w.step opens op).1.Held L ∧ _ := h.step ho
    obtain ⟨hu, hr⟩ := ih ht hs
    refine ⟨hu, fun key hk => ?_, fun path key hk => ?_⟩
    · exact (mem_append.mp hk).elim (hi.keys key) (hr.keys key)
    · exact (hr.frame path key hk).trans (hi.frame path key hk)

theorem run_append (w : Layered) (ops rest : List LayerOp) : w.run opens (ops ++ rest) =
    (((w.run opens ops).1.run opens rest).1, (w.run opens ops).2 ++ ((w.run opens ops).1.run opens rest).2) := by
  induction ops generalizing w with
  | nil => rfl
  | cons op ops ih => simp [Layered.run, ih]

/-- A layer is left with the prefix that the next key begins with. -/
theorem keeps_of_get (h : w.Held L) (hk : ∀ key ∈ (w.run opens [op, .get []]).2, [L] <+: key) : op.Keeps L := by
  have hg (w' : Layered) (hs : w.step opens op = (w', [])) (hw' : w'.layer.handle.isSome) :
      [L] <+: w'.layer.pre := by
    obtain ⟨disk, hd⟩ := Option.isSome_iff_exists.mp hw'
    have hr : w'.step opens (.get []) = (w', [w'.layer.pre ++ []]) := by simp only [Layered.step, hd]
    have hke := hk (w'.layer.pre ++ []) (by simp [Layered.run, hs, hr])
    rwa [append_nil] at hke
  cases op with
  | openKey path key => exact hg _ rfl (isSome_reopen (d := { w.layer with pre := key }) h.opened path)
  | attach p key =>
    rintro ⟨path, pre, handle, _⟩ rfl ho
    obtain ⟨disk, rfl⟩ := Option.isSome_iff_exists.mp ho
    exact hg _ rfl rfl
  | «open» | get | put | del | skip => trivial

/-- After calls that keep the layer, whatever is read and written next stays in it exactly if the next call keeps it. -/
theorem layer_isolated_iff (h : w.Held L) (hkeeps : ∀ op ∈ ops, op.Keeps L) (op : LayerOp) :
    (∀ rest, (∀ o ∈ rest, o.isData) → Isolated L w (w.run opens (ops ++ op :: rest))) ↔ op.Keeps L := by
  constructor
  · intro ha
    have hk := (ha [.get []] (by simp [LayerOp.isData])).keys
    rw [run_append] at hk
    exact keeps_of_get (h.run hkeeps).1 fun key hke => hk key (mem_append_right _ hke)
  · intro hp rest hr
    apply (h.run _).2
    intro o ho
    rcases mem_append.mp ho with ho | ho
    · exact hkeeps o ho
    · rcases mem_cons.mp ho with rfl | ho
      · exact hp
      · have hd := hr o ho
        cases o <;> trivial

def openedLayer : Layered := { disks := fun _ => Store.empty, layer := ⟨[100], [128], some [100], none⟩ }

theorem layer_isolated_key : Isolated 128 openedLayer (openedLayer.run (fun _ => true) [.openKey [100] [128, 7], .put [1] []]) :=
  (@layer_isolated_iff _ _ _ [] ⟨rfl, by decide⟩ (by simp) (.openKey [100] [128, 7])).mpr
    (by simp [LayerOp.Keeps]) [.put [1] []] (by simp [LayerOp.isData])

/-- Opened with a key, the layer loses its byte and writes over a record of the layer of that key. -/
theorem keyed_open_leaves_layer :
    ¬ Isolated 128 openedLayer (openedLayer.run (fun _ => true) [.openKey [100] [136], .put [1] [9]]) := by
  intro h
  exact absurd (h.keys [136, 1] (by decide +kernel)) (by decide)

end Gyro.Zyre
