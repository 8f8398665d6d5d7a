import Mathlib.Algebra.BigOperators.Group.List.Basic
import Mathlib.Tactic.Ring

/-!
# Amounts as outputs

`decompose_amount_into_digits`: outputs with one digit other than zero, and one for
the dust. The values stay below the amount, so natural numbers stand for words.
-/

namespace Gyro

open List

def restDust (dust : Nat) (isDustHandled : Bool) : List Nat :=
  if isDustHandled || dust = 0 then [] else [dust]

/-- The loop over the at most 20 digits that are left, at the place of value `order`. -/
def decomposeFrom (dustThreshold : Nat) : Nat → Nat → Nat → Nat → Bool → List Nat
  | 0, _, _, dust, isDustHandled => restDust dust isDustHandled
  | digits + 1, amount, order, dust, isDustHandled =>
    if amount = 0 then restDust dust isDustHandled
    else
      let chunk := amount % 10 * order
      if dust + chunk ≤ dustThreshold then
        decomposeFrom dustThreshold digits (amount / 10) (order * 10) (dust + chunk) isDustHandled
      else
        restDust dust isDustHandled ++ (if chunk = 0 then [] else [chunk]) ++
          decomposeFrom dustThreshold digits (amount / 10) (order * 10) dust
            (isDustHandled || dust ≠ 0)

def decomposeAmountIntoDigits (amount dustThreshold : Nat) : List Nat :=
  decomposeFrom dustThreshold 20 amount 1 0 false

inductive DigitCall where
  | chunk (value : Nat)
  | dust (value : Nat)

def DigitCall.value : DigitCall → Nat
  | .chunk value | .dust value => value

def dustCalls (dust : Nat) (isDustHandled : Bool) : List DigitCall :=
  (restDust dust isDustHandled).map .dust

def callsFrom (dustThreshold : Nat) : Nat → Nat → Nat → Nat → Bool → List DigitCall
  | 0, _, _, dust, isDustHandled => dustCalls dust isDustHandled
  | digits + 1, amount, order, dust, isDustHandled =>
    if amount = 0 then dustCalls dust isDustHandled
    else
      let chunk := amount % 10 * order
      if dust + chunk ≤ dustThreshold then
        callsFrom dustThreshold digits (amount / 10) (order * 10) (dust + chunk) isDustHandled
      else
        dustCalls dust isDustHandled ++ (if chunk = 0 then [] else [.chunk chunk]) ++
          callsFrom dustThreshold digits (amount / 10) (order * 10) dust (isDustHandled || dust ≠ 0)

/-- The calls are chunks of one digit each, at places that go up, from `low` on and below `high`. -/
structure ChunksOf (low high : Nat) (calls : List DigitCall) (digits : List (Nat × Nat)) : Prop where
  calls_eq : calls = digits.map fun p => .chunk (p.1 * 10 ^ p.2)
  digit : ∀ p ∈ digits, 0 < p.1 ∧ p.1 < 10 ∧ low ≤ p.2 ∧ p.2 < high
  increasing : digits.Pairwise fun p q => p.2 < q.2

def handlerCalls (amount dustThreshold : Nat) : List DigitCall :=
  callsFrom dustThreshold 20 amount 1 0 false

section
variable {threshold digits amount order dust place : Nat} {handled : Bool}

theorem decomposeFrom_zero : decomposeFrom threshold digits 0 order dust handled = restDust dust handled := by
  cases digits with
  | zero => rfl
  | succ digits => simp [decomposeFrom]

theorem sum_restDust : (restDust dust handled).sum = if handled then 0 else dust := by
  cases handled with
  | true => rfl
  | false =>
    by_cases hd : dust = 0
    · simp [restDust, hd]
    · simp [restDust, hd]

theorem length_restDust : (restDust dust handled).length ≤ 1 := by
  unfold restDust
  split <;> simp

theorem restDust_paid : restDust dust (handled || decide (dust ≠ 0)) = [] := by
  by_cases hd : dust = 0
  · simp [restDust, hd]
  · simp [restDust, hd]

theorem div_ten_lt (h : amount < 10 ^ (digits + 1)) : amount / 10 < 10 ^ digits := by
  rw [Nat.div_lt_iff_lt_mul (by decide)]
  exact h

theorem lowest_digit : amount * order = amount / 10 * (order * 10) + amount % 10 * order := by
  conv_lhs => rw [← Nat.div_add_mod amount 10]
  ring

theorem order_le_chunk (h : amount % 10 * order ≠ 0) : order ≤ amount % 10 * order :=
  Nat.le_mul_of_pos_left order (Nat.pos_of_ne_zero (Nat.mul_ne_zero_iff.mp h).1)

theorem sum_chunk (chunk : Nat) : (if chunk = 0 then [] else [chunk]).sum = chunk := by
  by_cases hc : chunk = 0
  · rw [hc]
    rfl
  · rw [if_neg hc, sum_singleton]

theorem decomposeFrom_sum (hi : amount < 10 ^ digits) (hu : dust < order)
    (ha : handled = true → threshold < order) : (decomposeFrom threshold digits amount order dust handled).sum =
      amount * order + if handled then 0 else dust := by
  induction digits generalizing amount order dust handled with
  | zero =>
    have hzero : amount = 0 := by simpa using hi
    rw [hzero, decomposeFrom_zero, sum_restDust]
    omega
  | succ digits ih =>
    by_cases hzero : amount = 0
    · rw [hzero, decomposeFrom_zero, sum_restDust]
      omega
    · have hn := div_ten_lt hi
      have hs := @lowest_digit amount order
      have hc : amount % 10 * order ≤ 9 * order :=
        Nat.mul_le_mul_right _ (by omega)
      unfold decomposeFrom
      rw [if_neg hzero]
      by_cases hsm : dust + amount % 10 * order ≤ threshold
      · rw [if_pos hsm]
        have hl : handled = true → amount % 10 * order = 0 := by
          intro hh
          have ht := ha hh
          by_contra hne
          have hle := order_le_chunk hne
          omega
        rw [ih hn (by omega) (fun hh => by have := ha hh; omega), hs]
        cases handled with
        | true =>
          have := hl rfl
          simp [this]
        | false =>
          simp only [Bool.false_eq_true, if_false]
          omega
      · rw [if_neg hsm, sum_append, sum_append, sum_restDust,
          ih hn (by omega) (fun _ => by omega), hs, sum_chunk]
        cases handled with
        | true => simp [Nat.add_comm]
        | false =>
          by_cases hd : dust = 0
          · simp [hd, Nat.add_comm]
          · simp [hd]
            omega

theorem decomposeFrom_length {left : Nat} (hl : amount < 10 ^ left) :
    (decomposeFrom threshold digits amount order dust handled).length ≤ left + (restDust dust handled).length := by
  induction digits generalizing amount order dust handled left with
  | zero => exact Nat.le_add_left _ _
  | succ digits ih =>
    by_cases hzero : amount = 0
    · rw [hzero, decomposeFrom_zero]
      omega
    · obtain ⟨left, rfl⟩ : ∃ n, left = n + 1 := by
        cases left with
        | zero => omega
        | succ n => exact ⟨n, rfl⟩
      have hn := div_ten_lt hl
      unfold decomposeFrom
      rw [if_neg hzero]
      dsimp only
      split
      · cases handled with
        | true =>
          have hr := @ih (amount / 10) (order * 10) (dust + amount % 10 * order) true left hn
          simp only [restDust, Bool.true_or, if_true, length_nil] at hr ⊢
          omega
        | false =>
          have hr := @ih (amount / 10) (order * 10) (dust + amount % 10 * order) false left hn
          have hd := @length_restDust (dust + amount % 10 * order) false
          omega
      · have hr := @ih (amount / 10) (order * 10) dust (handled || dust ≠ 0) left hn
        rw [restDust_paid, length_nil] at hr
        have hc : (if amount % 10 * order = 0 then [] else [amount % 10 * order]).length ≤ 1 := by
          split <;> simp
        rw [length_append, length_append]
        omega

theorem decomposeFrom_skip (places : Nat) (hs : dust + amount % 10 ^ places * order ≤ threshold) :
    decomposeFrom threshold (digits + places) amount order dust false =
      decomposeFrom threshold digits (amount / 10 ^ places) (order * 10 ^ places)
        (dust + amount % 10 ^ places * order) false := by
  induction places generalizing amount order dust with
  | zero => simp [Nat.mod_one]
  | succ places ih =>
    by_cases hzero : amount = 0
    · subst hzero
      rw [Nat.zero_div, Nat.zero_mod, Nat.zero_mul, decomposeFrom_zero, decomposeFrom_zero, Nat.add_zero]
    · have ho : amount % 10 ^ (places + 1) = amount % 10 + 10 * (amount / 10 % 10 ^ places) := by
        rw [pow_succ', Nat.mod_mul]
      have hv : dust + amount % 10 ^ (places + 1) * order =
          dust + amount % 10 * order + amount / 10 % 10 ^ places * (order * 10) := by
        rw [ho]
        ring
      rw [hv] at hs ⊢
      rw [← Nat.add_assoc]
      conv_lhs => unfold decomposeFrom
      rw [if_neg hzero]
      rw [if_pos (by omega), ih hs, Nat.div_div_eq_div_mul, pow_succ', Nat.mul_assoc]

theorem callsFrom_value : (callsFrom threshold digits amount order dust handled).map DigitCall.value =
    decomposeFrom threshold digits amount order dust handled := by
  have hd : ∀ dust handled, (dustCalls dust handled).map DigitCall.value = restDust dust handled := by
    intro dust handled
    simp [dustCalls, DigitCall.value, Function.comp_def]
  induction digits generalizing amount order dust handled with
  | zero => exact hd dust handled
  | succ digits ih =>
    simp only [callsFrom, decomposeFrom, apply_ite (List.map DigitCall.value), map_append, hd, ih]
    rfl

section
variable {high : Nat} {calls : List DigitCall} {ds : List (Nat × Nat)}

theorem chunksOf_nil : ChunksOf place high [] [] := ⟨rfl, by simp, .nil⟩

theorem ChunksOf.up (h : ChunksOf (place + 1) high calls ds) : ChunksOf place high calls ds where
  calls_eq := h.calls_eq
  digit p hp := by
    obtain ⟨ho, hl, hlo, hh⟩ := h.digit p hp
    exact ⟨ho, hl, by omega, hh⟩
  increasing := h.increasing

theorem ChunksOf.cons (h : ChunksOf (place + 1) high calls ds) (hh : place < high) (hc : amount % 10 * 10 ^ place ≠ 0) :
    ChunksOf place high (.chunk (amount % 10 * 10 ^ place) :: calls) ((amount % 10, place) :: ds) where
  calls_eq := by rw [h.calls_eq, map_cons]
  digit := by
    rintro p (_ | ⟨_, hp⟩)
    · exact ⟨Nat.pos_of_ne_zero (Nat.mul_ne_zero_iff.mp hc).1, Nat.mod_lt _ (by decide), Nat.le_refl _, hh⟩
    · exact h.up.digit p hp
  increasing := pairwise_cons.mpr ⟨fun q hq => (h.digit q hq).2.2.1, h.increasing⟩

end

theorem callsFrom_chunks (hl : threshold < 10 ^ place) (hp : restDust dust handled = []) :
    ∃ ds, ChunksOf place (place + digits) (callsFrom threshold digits amount (10 ^ place) dust handled) ds := by
  induction digits generalizing amount place handled with
  | zero => exact ⟨[], by rw [callsFrom, dustCalls, hp]; exact chunksOf_nil⟩
  | succ digits ih =>
    have hn : threshold < 10 ^ (place + 1) :=
      Nat.lt_trans hl (Nat.pow_lt_pow_right (by decide) (Nat.lt_succ_self place))
    have hr := @ih (amount / 10) (place + 1) (handled || dust ≠ 0) hn restDust_paid
    have hs := @ih (amount / 10) (place + 1) handled hn hp
    rw [show place + 1 + digits = place + (digits + 1) by omega] at hr hs
    rw [callsFrom, dustCalls, hp]
    dsimp only
    split
    · exact ⟨[], chunksOf_nil⟩
    · by_cases hc : amount % 10 * 10 ^ place = 0
      · rw [hc]
        split
        · exact hs.imp fun _ h => h.up
        · exact hr.imp fun _ h => h.up
      · obtain ⟨ds, hd⟩ := hr
        have hle := order_le_chunk hc
        rw [if_neg (by omega), if_neg hc]
        exact ⟨_, hd.cons (by omega) hc⟩

theorem callsFrom_dust (hu : dust < 10 ^ place) (hle : dust ≤ threshold) :
    ∃ t chunks ds, t ≤ threshold ∧ ChunksOf place (place + digits) chunks ds ∧
      callsFrom threshold digits amount (10 ^ place) dust false = dustCalls t false ++ chunks := by
  induction digits generalizing amount place dust with
  | zero => exact ⟨dust, [], [], hle, chunksOf_nil, (append_nil _).symm⟩
  | succ digits ih =>
    have hp : place + 1 + digits = place + (digits + 1) := by omega
    have hl : amount % 10 * 10 ^ place ≤ 9 * 10 ^ place := Nat.mul_le_mul_right _ (by omega)
    rw [callsFrom]
    dsimp only
    split
    · exact ⟨dust, [], [], hle, chunksOf_nil, (append_nil _).symm⟩
    · split
      · rename_i hs
        obtain ⟨t, chunks, ds, ht, hn, heq⟩ :=
          @ih (amount / 10) (dust + amount % 10 * 10 ^ place) (place + 1) (by omega) hs
        exact ⟨t, chunks, ds, ht, hp ▸ hn.up, heq⟩
      · have hc : amount % 10 * 10 ^ place ≠ 0 := by omega
        obtain ⟨ds, hd⟩ := @callsFrom_chunks threshold digits (amount / 10) dust (place + 1) (false || dust ≠ 0)
          (by omega) restDust_paid
        refine ⟨dust, _, _, hle, (hp ▸ hd).cons (by omega) hc, ?_⟩
        rw [if_neg hc, append_assoc]
        rfl

end

/-! ## Whole amounts -/

variable {amount : Nat}

theorem decomposeAmountIntoDigits_sum (h : amount < 10 ^ 20) (threshold : Nat) :
    (decomposeAmountIntoDigits amount threshold).sum = amount := by
  unfold decomposeAmountIntoDigits
  rw [decomposeFrom_sum h (by decide) (by simp)]
  simp

theorem decomposeAmountIntoDigits_length_dust (h : amount < 10 ^ 19) :
    (decomposeAmountIntoDigits amount 2000000000).length ≤ 11 := by
  have hl : 0 + amount % 10 ^ 9 * 1 ≤ 2000000000 := by omega
  have hf : amount / 10 ^ 9 < 10 ^ 10 := by omega
  have hn := @decomposeFrom_length 2000000000 11 _ (1 * 10 ^ 9) (0 + amount % 10 ^ 9 * 1) false _ hf
  have hd : (restDust (0 + amount % 10 ^ 9 * 1) false).length ≤ 1 := by
    unfold restDust
    split <;> simp
  unfold decomposeAmountIntoDigits
  rw [decomposeFrom_skip 9 hl]
  omega

theorem decomposeAmountIntoDigits_length_cut (h : amount < 10 ^ 19) (hc : amount % 10 ^ 8 = 0) :
    (decomposeAmountIntoDigits amount 0).length ≤ 11 := by
  have ho : 0 + amount % 10 ^ 8 * 1 ≤ 0 := by omega
  have hf : amount / 10 ^ 8 < 10 ^ 11 := by omega
  have hl := @decomposeFrom_length 0 12 _ (1 * 10 ^ 8) (0 + amount % 10 ^ 8 * 1) false _ hf
  rw [hc] at hl
  unfold decomposeAmountIntoDigits
  rw [decomposeFrom_skip 8 ho, hc]
  exact hl

theorem decomposeAmountIntoDigits_digit {x : Nat} (hx : x ∈ decomposeAmountIntoDigits amount 0) :
    ∃ d k, 0 < d ∧ d < 10 ∧ k < 20 ∧ x = d * 10 ^ k := by
  obtain ⟨ds, hc⟩ := @callsFrom_chunks 0 20 amount 0 0 false (by decide) rfl
  unfold decomposeAmountIntoDigits at hx
  rw [← callsFrom_value, show (1 : Nat) = 10 ^ 0 from rfl, hc.calls_eq, map_map] at hx
  obtain ⟨p, hp, rfl⟩ := mem_map.mp hx
  obtain ⟨ho, hl, -, hpl⟩ := hc.digit p hp
  exact ⟨p.1, p.2, ho, hl, hpl, rfl⟩

theorem handlerCalls_spec (h : amount < 10 ^ 20) (threshold : Nat) : ∃ t chunks ds,
    handlerCalls amount threshold = dustCalls t false ++ chunks ∧ t ≤ threshold ∧ ChunksOf 0 20 chunks ds ∧
      ((handlerCalls amount threshold).map DigitCall.value).sum = amount := by
  obtain ⟨t, chunks, ds, ht, hc, heq⟩ := @callsFrom_dust threshold 20 amount 0 0 (by decide) (Nat.zero_le _)
  have hs := decomposeAmountIntoDigits_sum h threshold
  rw [decomposeAmountIntoDigits, ← callsFrom_value] at hs
  exact ⟨t, chunks, ds, heq, ht, hc, hs⟩

end Gyro
