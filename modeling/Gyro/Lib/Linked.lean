import Mathlib.Data.List.Basic

/-!
# Chains linked by hashes

A list of blocks, newest first, in which every block names the hash of the one below.
When no two blocks share a hash, the top hash determines the chain.
-/

namespace Linked

open List

variable {β H : Type} (hash prev : β → H) (root : H)

def topHash : List β → H
  | [] => root
  | b :: _ => hash b

def IsLinked : List β → Prop
  | [] => True
  | b :: rest => prev b = topHash hash root rest ∧ IsLinked rest

instance decidableIsLinked [DecidableEq H] : DecidablePred (IsLinked hash prev root)
  | [] => isTrue trivial
  | b :: rest =>
    have := decidableIsLinked rest
    inferInstanceAs (Decidable (prev b = topHash hash root rest ∧ IsLinked hash prev root rest))

/-- Among the blocks met, a hash stands for one block, and never for the root. -/
structure Distinct (S : β → Prop) : Prop where
  injective : ∀ b c, S b → S c → hash b = hash c → b = c
  not_root : ∀ b, S b → hash b ≠ root

variable {hash prev root} {S : β → Prop} {xs ys : List β}

theorem IsLinked.of_append {pre : List β} (h : IsLinked hash prev root (pre ++ xs)) : IsLinked hash prev root xs := by
  induction pre with
  | nil => exact h
  | cons b pre ih => exact ih h.2

theorem IsLinked.unique (hS : Distinct hash root S) (hx : IsLinked hash prev root xs)
    (hy : IsLinked hash prev root ys) (hs : ∀ b ∈ xs, S b) (hyS : ∀ b ∈ ys, S b)
    (ht : topHash hash root xs = topHash hash root ys) : xs = ys := by
  induction xs generalizing ys with
  | nil =>
    cases ys with
    | nil => rfl
    | cons c ys => exact absurd ht.symm (hS.not_root c (hyS c mem_cons_self))
  | cons b xs ih =>
    cases ys with
    | nil => exact absurd ht (hS.not_root b (hs b mem_cons_self))
    | cons c ys =>
      have hb : b = c :=
        hS.injective b c (hs b mem_cons_self) (hyS c mem_cons_self) ht
      subst hb
      have hbe : topHash hash root xs = topHash hash root ys := hx.1.symm.trans hy.1
      rw [ih hx.2 hy.2 (fun d hd => hs d (mem_cons_of_mem _ hd)) (fun d hd => hyS d (mem_cons_of_mem _ hd)) hbe]

theorem topHash_of_getLast? {b : β} (h : xs.getLast? = some b) : topHash hash root xs.reverse = hash b := by
  rw [← List.head?_reverse] at h
  cases hr : xs.reverse with
  | nil => simp [hr] at h
  | cons c rest =>
    rw [hr] at h
    cases h
    rfl

theorem IsLinked.shared (hS : Distinct hash root S) (hx : IsLinked hash prev root xs.reverse)
    (hy : IsLinked hash prev root ys.reverse) (hs : ∀ b ∈ xs, S b) (hyS : ∀ b ∈ ys, S b) {i j : Nat} {b c : β}
    (hb : xs[i]? = some b) (hc : ys[j]? = some c) (hbc : hash b = hash c) :
    i = j ∧ xs.take (i + 1) = ys.take (j + 1) := by
  have below : ∀ {zs : List β} {n : Nat} {d : β}, IsLinked hash prev root zs.reverse → zs[n]? = some d →
      IsLinked hash prev root (zs.take (n + 1)).reverse ∧
        topHash hash root (zs.take (n + 1)).reverse = hash d ∧ (zs.take (n + 1)).length = n + 1 := by
    intro zs n d hz hd
    obtain ⟨hn, hd'⟩ := List.getElem?_eq_some_iff.mp hd
    refine ⟨?_, topHash_of_getLast? ?_, by simp; omega⟩
    · rw [← take_append_drop (n + 1) zs, reverse_append] at hz
      exact hz.of_append
    · simp [List.getLast?_take, hd]
  obtain ⟨hl, hxt, hxn⟩ := below hx hb
  obtain ⟨hyl, hyt, hyn⟩ := below hy hc
  have ha := hl.unique hS hyl (fun d hd => hs d (mem_of_mem_take (mem_reverse.mp hd)))
    (fun d hd => hyS d (mem_of_mem_take (mem_reverse.mp hd))) (by rw [hxt, hyt, hbc])
  have ht := reverse_injective ha
  rw [ht] at hxn
  exact ⟨by omega, ht⟩

end Linked
