import Mathlib.Data.List.Basic
import Mathlib.Algebra.Order.Monoid.Defs
import Mathlib.Tactic.Ring
import Mathlib.Tactic.Linarith

/-!
# Termination of machines with a stack

A machine that takes one labelled step after another halts when a measure drops at every step. A machine
with a stack of frames has such a measure when every frame has a bounded number of things left to do and
calls frames of a lower level only: what is left is a number, written with a digit for each frame.

## Main definitions

* `runSteps step n`: the first steps of a partial function, with their labels.
* `stackWork B`: what is left to do in some frames, to the base `B`.

## Main results

* `exists_halt_of_measure`: a machine with a measure halts within it.
* `stackWork_lt_of_top`, `stackWork_push_lt`: a frame does something, or calls another one.
-/

namespace Wasmrt

/-! ## Machines that halt -/

section Halting

variable {ε α : Type*} (step : α → Option (List ε × α))

/-- The first `n` steps, or as many as there are: their labels, and the state after them. -/
def runSteps : ℕ → α → List ε × α
  | 0, a => ([], a)
  | n + 1, a =>
    match step a with
    | none => ([], a)
    | some (es, b) => (es ++ (runSteps n b).1, (runSteps n b).2)

variable {step}

theorem runSteps_succ {n : ℕ} {a b : α} {es : List ε} (h : step a = some (es, b)) :
    runSteps step (n + 1) a = (es ++ (runSteps step n b).1, (runSteps step n b).2) := by
  rw [runSteps, h]

/-- A machine halts within a measure that drops at every step. The measure need only drop where an invariant
of the machine holds. -/
theorem exists_halt_of_measure {I : α → Prop} (μ : α → ℕ)
    (hstep : ∀ a es b, I a → step a = some (es, b) → I b ∧ μ b < μ a) {a : α} (ha : I a) :
    ∃ n ≤ μ a, step (runSteps step n a).2 = none := by
  -- by strong induction on what is left
  induction hμ : μ a using Nat.strong_induction_on generalizing a with
  | _ k ih =>
    rcases h : step a with _ | ⟨es, b⟩
    · exact ⟨0, Nat.zero_le _, h⟩
    · obtain ⟨hb, hlt⟩ := hstep a es b ha h
      obtain ⟨n, hn, hnone⟩ := ih (μ b) (hμ ▸ hlt) hb rfl
      refine ⟨n + 1, by omega, ?_⟩
      rw [runSteps_succ h]
      exact hnone

end Halting

/-! ## Work left on a stack -/

/-- What is left to do in some frames, the innermost first: each has a number of things to do, and its level,
which is the number of frames it may have above it. -/
def stackWork (B : ℕ) : List (ℕ × ℕ) → ℕ
  | [] => 0
  | (todo, level) :: frames => todo * B ^ level + stackWork B frames

section StackWork

variable {B todo todo' level : ℕ} {frames : List (ℕ × ℕ)}

@[simp]
theorem stackWork_nil : stackWork B [] = 0 := rfl

@[simp]
theorem stackWork_cons : stackWork B ((todo, level) :: frames) = todo * B ^ level + stackWork B frames := rfl

/-- One digit is worth less than one of the next level. -/
theorem mul_pow_lt_pow_succ (level : ℕ) (h : todo < B) : todo * B ^ level < B ^ (level + 1) := by
  rw [pow_succ, Nat.mul_comm]
  exact Nat.mul_lt_mul_of_pos_left h (Nat.pow_pos (Nat.zero_lt_of_lt h))

/-- The innermost frame does something. -/
theorem stackWork_lt_of_top (hB : 0 < B) (h : todo' < todo) :
    stackWork B ((todo', level) :: frames) < stackWork B ((todo, level) :: frames) := by
  rw [stackWork_cons, stackWork_cons]
  apply Nat.add_lt_add_right
  exact Nat.mul_lt_mul_of_pos_right h (Nat.pow_pos hB)

/-- The innermost frame is gone. -/
theorem stackWork_pop_lt (hB : 0 < B) (h : 0 < todo) :
    stackWork B frames < stackWork B ((todo, level) :: frames) := by
  rw [stackWork_cons]
  have hpos : 0 < todo * B ^ level := Nat.mul_pos h (Nat.pow_pos hB)
  omega

/-- The innermost frame calls another, of a lower level, which has fewer things to do than the base. -/
theorem stackWork_push_lt (h : todo' < B) :
    stackWork B ((todo', level) :: (todo, level + 1) :: frames) <
      stackWork B ((todo + 1, level + 1) :: frames) := by
  simp only [stackWork_cons, Nat.succ_mul]
  have := mul_pow_lt_pow_succ level h
  omega

/-- A unit of a budget that is worth more than any frame pays for a new one in place of the innermost. -/
theorem budget_stackWork_lt {fuel fuel' top : ℕ} (hfuel : fuel' < fuel) (h : todo' < B) (hlevel : level < top) :
    fuel' * B ^ top + stackWork B ((todo', level) :: frames) <
      fuel * B ^ top + stackWork B ((todo, level) :: frames) := by
  have hpow : B ^ (level + 1) ≤ B ^ top := Nat.pow_le_pow_right (Nat.zero_lt_of_lt h) hlevel
  have hunit : (fuel' + 1) * B ^ top ≤ fuel * B ^ top := Nat.mul_le_mul_right _ hfuel
  have hframe := mul_pow_lt_pow_succ level h
  simp only [stackWork_cons, Nat.succ_mul] at hunit ⊢
  omega

end StackWork

end Wasmrt
