import Mathlib.Logic.Function.Iterate
import Mathlib.Order.Basic
import ShiftReduce.Proofs.Fixpoint

/-! # Loops that end by a flag

Before a pass a flag is cleared, each small step of the pass may set it, and the loop goes on as long as
it is set. When each small step reports just its own changes (`Reports`), the flag of the whole pass is
right as well, although the steps read what the ones before them have changed (`Reports.andThen`,
`Reports.forEach`). A flag that is never set in vain makes the loop end (`Reports.exists_loops`), and one
that is never missed makes it end in what a further pass does not change (`Loops.fixed`). So the loop is
the repetition that compares before and after (`Loops.saturate_eq`), and a measure that shrinks says how
many passes there are (`Loops.length_le`). -/

namespace ShiftReduce

/-! ## Steps with a flag -/

namespace Flagged

variable {α β : Type}

/-- Changes nothing and reports nothing. -/
def idle (x : α) : α × Bool := (x, false)

/-- One step behind the other; a change is reported when either reports one. -/
def andThen (f f' : α → α × Bool) (x : α) : α × Bool :=
  let (y, changed) := f x
  let (z, changed') := f' y
  (z, changed || changed')

/-- The steps for the elements of a list; a change is reported when any of them reports one. -/
def forEach (step : β → α → α × Bool) : List β → α → α × Bool
  | [] => idle
  | b :: bs => andThen (step b) (forEach step bs)

/-- Two steps do what the second does behind the first. -/
@[simp] theorem fst_andThen (f f' : α → α × Bool) (x : α) :
    (andThen f f' x).1 = (f' (f x).1).1 := rfl

/-- Two steps report a change when one of them does. -/
@[simp] theorem snd_andThen (f f' : α → α × Bool) (x : α) :
    (andThen f f' x).2 = ((f x).2 || (f' (f x).1).2) := rfl

/-- Without the flags the steps for a list are a fold. -/
theorem fst_forEach (step : β → α → α × Bool) (bs : List β) (x : α) :
    (forEach step bs x).1 = bs.foldl (fun x b => (step b x).1) x := by
  induction bs generalizing x with
  | nil => rfl
  | cons b bs ih => exact ih (step b x).1

/-- When no step takes anything away, all of them together do not. -/
theorem le_forEach [Preorder α] {step : β → α → α × Bool} (h : ∀ b x, x ≤ (step b x).1)
    (bs : List β) (x : α) : x ≤ (forEach step bs x).1 := by
  induction bs generalizing x with
  | nil => exact le_refl x
  | cons b bs ih => exact (h b x).trans (ih (step b x).1)

end Flagged

/-- A step shrinks a measure, and its flag says whether it changes anything. -/
structure Reports {α : Type} (p : α → Prop) (measure : α → Nat) (f : α → α × Bool) : Prop where
  /-- without the flag it is a shrinking step -/
  shrinks : Shrinks p measure fun x => (f x).1
  /-- the flag is set exactly when there is a change -/
  flag_iff : ∀ x, p x → ((f x).2 = true ↔ (f x).1 ≠ x)

namespace Reports

variable {α β : Type} {p : α → Prop} {measure : α → Nat} {f f' : α → α × Bool}

/-- Doing nothing reports nothing. -/
theorem idle : Reports p measure Flagged.idle where
  shrinks := Shrinks.refl
  flag_iff _ _ := iff_of_false Bool.false_ne_true fun h => h rfl

/-- **Flags of steps one behind the other are OR-ed:** the second step cannot undo what the first one
did, so there is a change just when one of them makes one. -/
theorem andThen (hf : Reports p measure f) (hf' : Reports p measure f') :
    Reports p measure (Flagged.andThen f f') where
  shrinks := hf.shrinks.comp hf'.shrinks
  flag_iff x hx := by
    have hsecond := hf'.flag_iff _ (hf.shrinks.keep x hx)
    rw [Flagged.snd_andThen, Bool.or_eq_true, hf.flag_iff x hx, hsecond, Flagged.fst_andThen]
    constructor
    · intro hchange hsame
      obtain ⟨hfirst, hthen⟩ := hf.shrinks.eq_of_comp hf'.shrinks hx hsame
      rcases hchange with hne | hne
      · exact hne hfirst
      · exact hne (by rw [hfirst, hthen])
    · intro hchange
      by_cases hfirst : (f x).1 = x
      · exact Or.inr (by rwa [hfirst] at hchange ⊢)
      · exact Or.inl hfirst

/-- The same for the elements of a list. -/
theorem forEach {step : β → α → α × Bool} {bs : List β}
    (h : ∀ b ∈ bs, Reports p measure (step b)) : Reports p measure (Flagged.forEach step bs) := by
  induction bs with
  | nil => exact idle
  | cons b bs ih =>
    have hfirst := h b (List.mem_cons_self ..)
    exact hfirst.andThen (ih fun b' hb' => h b' (List.mem_cons_of_mem _ hb'))

/-- Without a report there is no change. -/
theorem fst_eq (h : Reports p measure f) {x y : α} (hx : p x) (hxy : f x = (y, false)) : y = x := by
  have hflag := h.flag_iff x hx
  rw [hxy] at hflag
  by_contra hne
  exact Bool.false_ne_true (hflag.mpr hne)

/-- A change that is reported is one. -/
theorem fst_ne (h : Reports p measure f) {x y : α} (hx : p x) (hxy : f x = (y, true)) : y ≠ x := by
  have hflag := h.flag_iff x hx
  rw [hxy] at hflag
  exact hflag.mp rfl

end Reports

/-! ## Loops -/

section Loops

variable {α β : Type} {p : α → Prop} {f : α → α × Bool}

/-- `Loops f x n y`: the loop that makes passes as long as they report a change goes from `x` to `y` in
`n` passes. -/
inductive Loops (f : α → α × Bool) : α → Nat → α → Prop
  /-- the last pass reports no change -/
  | last {x y : α} (pass : f x = (y, false)) : Loops f x 1 y
  /-- another pass comes behind one that reports a change -/
  | again {x y z : α} {n : Nat} (pass : f x = (y, true)) (rest : Loops f y n z) : Loops f x (n + 1) z

/-- **A loop whose flag is never set in vain ends.** -/
theorem Reports.exists_loops {measure : α → Nat} (h : Reports p measure f) {x : α} (hx : p x) :
    ∃ n y, Loops f x n y := by
  induction hm : measure x using Nat.strongRecOn generalizing x with
  | _ m ih =>
    cases hpass : f x with
    | mk y changed =>
      cases changed with
      | false => exact ⟨1, y, .last hpass⟩
      | true =>
        have hkeep : p (f x).1 := h.shrinks.keep x hx
        have hshrink : (f x).1 ≠ x → measure (f x).1 < measure x := h.shrinks.shrink x hx
        rw [hpass] at hkeep hshrink
        obtain ⟨n, z, hrest⟩ := ih (measure y) (hm ▸ hshrink (h.fst_ne hx hpass)) hkeep rfl
        exact ⟨n + 1, z, .again hpass hrest⟩

namespace Loops

variable {x y : α} {n : Nat}

/-- **A loop whose flag is never missed ends in what a further pass does not change.** -/
theorem fixed {measure : α → Nat} (hloop : Loops f x n y) (h : Reports p measure f) (hx : p x) :
    f y = (y, false) := by
  induction hloop with
  | last hpass =>
    obtain rfl := h.fst_eq hx hpass
    exact hpass
  | again hpass _ ih =>
    have hkeep : p (f _).1 := h.shrinks.keep _ hx
    rw [hpass] at hkeep
    exact ih hkeep

/-- **The loop is the repetition of a step until nothing changes**, as often and with the same result.
The step may be one on a view of what the loop works on, if all changes can be seen in it. -/
theorem saturate_eq [DecidableEq β] (view : α → β) (step : β → β) {measure : α → Nat}
    (hloop : Loops f x n y) (h : Reports p measure f) (hx : p x)
    (hview : ∀ x, view (f x).1 = step (view x))
    (hseen : ∀ x, p x → (f x).1 ≠ x → view (f x).1 ≠ view x) {bound : Nat} (hbound : n ≤ bound) :
    passes step bound (view x) = n ∧ saturate step bound (view x) = view y := by
  induction hloop generalizing bound with
  | @last x y hpass =>
    obtain rfl := h.fst_eq hx hpass
    obtain ⟨bound, rfl⟩ := Nat.exists_eq_add_one.mpr hbound
    have hsame : step (view y) = view y := by rw [← hview, hpass]
    rw [passes, saturate, if_pos hsame, if_pos hsame]
    exact ⟨rfl, rfl⟩
  | @again x y z n hpass _ ih =>
    obtain ⟨bound, rfl⟩ := Nat.exists_eq_add_one.mpr (Nat.lt_of_lt_of_le (Nat.succ_pos n) hbound)
    have hkeep : p (f x).1 := h.shrinks.keep x hx
    have hchange := hseen x hx
    have hstep := hview x
    rw [hpass] at hkeep hchange hstep
    have hne : step (view x) ≠ view x := hstep ▸ hchange (h.fst_ne hx hpass)
    obtain ⟨hpasses, hresult⟩ := ih hkeep (Nat.le_of_succ_le_succ hbound)
    rw [passes, saturate, if_neg hne, if_neg hne, ← hstep, hpasses]
    exact ⟨rfl, hresult⟩

/-- **There is at most one pass more than the measure says.** -/
theorem length_le {measure : α → Nat} (hloop : Loops f x n y) (h : Reports p measure f) (hx : p x) :
    n ≤ measure x + 1 := by
  classical
  have hpasses := (hloop.saturate_eq id (fun x => (f x).1) h hx (fun _ => rfl) (fun _ _ hne => hne)
    (Nat.le_refl n)).1
  have hle := passes_le h.shrinks.keep h.shrinks.shrink n hx
  exact hpasses ▸ hle

end Loops

/-- A loop that only ever adds converges from a start within a number of passes, and its flag is right. -/
structure Converges [LE α] (f : α → α × Bool) (start : α) (bound : Nat) : Prop where
  /-- the loop ends -/
  ends : ∃ n y, Loops f start n y
  /-- it makes no more passes than the bound says -/
  length_le : ∀ n y, Loops f start n y → n ≤ bound
  /-- a further pass changes nothing and reports nothing -/
  fixed : ∀ n y, Loops f start n y → f y = (y, false)
  /-- a pass takes nothing away, from wherever it starts -/
  grows : ∀ x, x ≤ (f x).1
  /-- after any number of passes the next one reports a change exactly when it makes one -/
  flag_iff : ∀ k x, (fun x => (f x).1)^[k] start = x → ((f x).2 = true ↔ (f x).1 ≠ x)

/-- **A loop converges when its flag is right and its passes add and shrink a measure.** -/
theorem Reports.converges [LE α] {measure : α → Nat} (h : Reports p measure f)
    (hgrows : ∀ x, x ≤ (f x).1) {start : α} (hstart : p start) {bound : Nat}
    (hbound : measure start < bound) : Converges f start bound where
  ends := h.exists_loops hstart
  length_le _ _ hloop := Nat.le_trans (hloop.length_le h hstart) hbound
  fixed _ _ hloop := hloop.fixed h hstart
  grows := hgrows
  flag_iff := by
    rintro k x rfl
    exact h.flag_iff _ (Function.Iterate.rec p hstart h.shrinks.keep k)

end Loops

end ShiftReduce
