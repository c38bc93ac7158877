/-! # Repeating a step until it changes nothing -/

namespace ShiftReduce

variable {α : Type} [DecidableEq α]

/-- Repeats a step until it changes nothing, but no more often than the bound says. -/
def saturate (step : α → α) : Nat → α → α
  | 0, x => x
  | bound + 1, x => if step x = x then x else saturate step bound (step x)

/-- How often the step is tried, the last time included, in which it changes nothing. -/
def passes (step : α → α) : Nat → α → Nat
  | 0, _ => 0
  | bound + 1, x => if step x = x then 1 else passes step bound (step x) + 1

/-- What the step keeps, its repetition keeps. -/
theorem saturate_induction {step : α → α} {p : α → Prop} (keep : ∀ x, p x → p (step x))
    (bound : Nat) {x : α} (h : p x) : p (saturate step bound x) := by
  induction bound generalizing x with
  | zero => exact h
  | succ bound ih =>
    unfold saturate
    split
    · exact h
    · exact ih (keep x h)

section Measure

variable {step : α → α} {p : α → Prop} {measure : α → Nat}

/-- When every step that changes something makes a measure smaller, a bound above the measure leads to
a result that a further step does not change. -/
theorem step_saturate (keep : ∀ x, p x → p (step x))
    (shrink : ∀ x, p x → step x ≠ x → measure (step x) < measure x) {bound : Nat} {x : α}
    (h : p x) (room : measure x < bound) :
    step (saturate step bound x) = saturate step bound x := by
  induction bound generalizing x with
  | zero => omega
  | succ bound ih =>
    unfold saturate
    split
    · assumption
    · next hx =>
      have := shrink x h hx
      exact ih (keep x h) (by omega)

/-- When every step that changes something makes a measure smaller, there is at most one pass more than
the measure says. -/
theorem passes_le (keep : ∀ x, p x → p (step x))
    (shrink : ∀ x, p x → step x ≠ x → measure (step x) < measure x) (bound : Nat) {x : α}
    (h : p x) : passes step bound x ≤ measure x + 1 := by
  induction bound generalizing x with
  | zero => simp [passes]
  | succ bound ih =>
    unfold passes
    split
    · omega
    · next hx =>
      have := shrink x h hx
      have := ih (keep x h)
      omega

end Measure

end ShiftReduce
