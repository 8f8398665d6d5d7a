import Mathlib.Data.List.Basic
import Mathlib.Data.List.Induction

/-!
# Runs of a partial step function

A step function may refuse an input. `EveryStep` states a condition on each state and the
input taken there; `run_invariant` is the induction rule of the safety results.
-/

namespace Runs

variable {σ ι : Type} (step : σ → ι → Option σ)

/-- Feeds the inputs one after the other; `none` as soon as one is refused. -/
def run : σ → List ι → Option σ
  | s, [] => some s
  | s, i :: is => (step s i).bind fun t => run t is

/-- `P` holds of every state of the run from `s` and the input taken there. -/
def EveryStep (P : σ → ι → Prop) (s : σ) (is : List ι) : Prop :=
  ∀ pre i post u, is = pre ++ i :: post → run step s pre = some u → P u i

variable {step} {P : σ → ι → Prop} {s t u : σ} {i : ι} {is : List ι}

theorem run_cons : run step s (i :: is) = (step s i).bind fun t => run step t is := rfl

theorem run_cons_eq_some : run step s (i :: is) = some u ↔ ∃ t, step s i = some t ∧ run step t is = some u := by
  simp [run_cons, Option.bind_eq_some_iff]

theorem run_append (is js : List ι) : run step s (is ++ js) = (run step s is).bind fun t => run step t js := by
  induction is generalizing s with
  | nil => rfl
  | cons i is ih =>
    rw [List.cons_append, run_cons, run_cons, Option.bind_assoc]
    congr 1
    funext t
    exact ih

theorem run_split {pre post : List ι} (h : run step s (pre ++ i :: post) = some u) :
    ∃ a b, run step s pre = some a ∧ step a i = some b ∧ run step b post = some u := by
  rw [run_append, Option.bind_eq_some_iff] at h
  obtain ⟨a, ha, hr⟩ := h
  obtain ⟨b, hb, hp⟩ := run_cons_eq_some.mp hr
  exact ⟨a, b, ha, hb, hp⟩

theorem EveryStep.head (h : EveryStep step P s (i :: is)) : P s i := h [] i is s rfl rfl

theorem EveryStep.tail (h : EveryStep step P s (i :: is)) (hs : step s i = some t) : EveryStep step P t is := by
  intro pre j post u hi hr
  refine h (i :: pre) j post u (by rw [hi]; rfl) ?_
  exact run_cons_eq_some.mpr ⟨t, hs, hr⟩

theorem EveryStep.take {pre post : List ι} (h : EveryStep step P s (pre ++ post)) : EveryStep step P s pre := by
  intro a j b u hi hr
  exact h a j (b ++ post) u (by rw [hi, List.append_assoc]; rfl) hr

theorem everyStep_nil : EveryStep step P s [] := by
  intro pre i post u hi
  cases pre <;> cases hi

theorem everyStep_cons (hh : P s i)
    (ha : ∀ t, step s i = some t → EveryStep step P t is) : EveryStep step P s (i :: is) := by
  intro pre j post u hi hr
  cases pre with
  | nil =>
    cases hi
    cases hr
    exact hh
  | cons k pre =>
    cases hi
    obtain ⟨t, ht, hre⟩ := run_cons_eq_some.mp hr
    exact ha t ht pre j post u rfl hre

theorem everyStep_of_forall (h : ∀ i ∈ is, ∀ u, P u i) : EveryStep step P s is := by
  intro pre i post u hi _
  exact h i (by rw [hi]; simp) u

theorem EveryStep.and_forall {Q : ι → Prop} (h : EveryStep step P s is) (ha : ∀ i ∈ is, Q i) :
    EveryStep step (fun s i => P s i ∧ Q i) s is := by
  intro pre i post u hi hr
  exact ⟨h pre i post u hi hr, ha i (by rw [hi]; simp)⟩

theorem EveryStep.concat (h : EveryStep step P s is) (hi : ∀ u, run step s is = some u → P u i) :
    EveryStep step P s (is ++ [i]) := by
  intro pre j post u hs hr
  cases hp : post using List.reverseRecOn with
  | nil =>
    subst hp
    obtain ⟨rfl, hl⟩ := List.append_inj' hs rfl
    cases hl
    exact hi u hr
  | append_singleton mid last _ =>
    subst hp
    rw [← List.cons_append, ← List.append_assoc] at hs
    obtain ⟨rfl, _⟩ := List.append_inj' hs rfl
    exact h pre j mid u rfl hr

/-- An invariant of the steps that meet `P` holds after every run of such steps. -/
theorem run_invariant {I : σ → Prop} (hs : ∀ s i t, I s → P s i → step s i = some t → I t)
    (h₀ : I s) (hP : EveryStep step P s is) (hr : run step s is = some u) : I u := by
  induction is generalizing s with
  | nil => cases hr; exact h₀
  | cons i is ih =>
    obtain ⟨t, ht, hre⟩ := run_cons_eq_some.mp hr
    exact ih (hs s i t h₀ hP.head ht) (hP.tail ht) hre

theorem run_preserves {I : σ → Prop} (ht : ∀ s i t, I s → step s i = some t → I t)
    (h₀ : I s) (hr : run step s is = some u) : I u :=
  run_invariant (P := fun _ _ => True) (fun s i t hs _ => ht s i t hs) h₀
    (fun _ _ _ _ _ _ => trivial) hr

variable (step) in
def Reaches (Q : ι → Prop) (s t : σ) : Prop := ∃ is, run step s is = some t ∧ ∀ i ∈ is, Q i

variable {Q : ι → Prop}

theorem Reaches.refl : Reaches step Q s s := by
  refine ⟨[], rfl, ?_⟩
  intro i hi
  cases hi

theorem Reaches.single (hi : Q i) (h : step s i = some t) : Reaches step Q s t := by
  refine ⟨[i], run_cons_eq_some.mpr ⟨t, h, rfl⟩, ?_⟩
  intro j hj
  rw [List.mem_singleton.mp hj]
  exact hi

theorem Reaches.trans (h : Reaches step Q s t) (h' : Reaches step Q t u) : Reaches step Q s u := by
  obtain ⟨is, hr, hs⟩ := h
  obtain ⟨js, hr', hj⟩ := h'
  refine ⟨is ++ js, by rw [run_append, hr]; exact hr', ?_⟩
  intro i hi
  exact (List.mem_append.mp hi).elim (hs i) (hj i)

theorem Reaches.preserves {I : σ → Prop} (h : Reaches step Q s t)
    (hs : ∀ s i t, I s → Q i → step s i = some t → I t) (h₀ : I s) : I t := by
  obtain ⟨is, hr, hi⟩ := h
  refine run_invariant (P := fun _ i => Q i) hs h₀ ?_ hr
  intro pre i post u heq _
  exact hi i (by rw [heq]; simp)

end Runs
