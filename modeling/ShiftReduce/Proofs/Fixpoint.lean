import ShiftReduce.OrderedMap
import ShiftReduce.Saturate
import ShiftReduce.SymbolSet
import Mathlib.Data.List.Basic

/-! # Steps that shrink a measure

`FIRST`, `FOLLOW` and the closure are found by repeating passes over the rules, and a pass is many small
steps one after the other. When each small step, unless it changes nothing, makes one measure smaller,
then so does the pass (`Shrinks.comp`, `Shrinks.foldl`); and a pass that changes nothing is one in which
no small step changes anything (`Shrinks.eq_of_comp`, `Shrinks.eq_of_foldl`), since a measure that went
down does not come up again. Repeating such a step saturates it (`Shrinks.saturate_fixed`).

The measures count what is missing in sets (`SymbolSet.missing`), entry by entry (`OrderedMap.total`). -/

namespace ShiftReduce

/-! ## Shrinking steps -/

/-- A step keeps an invariant and makes a measure smaller, unless it changes nothing. -/
structure Shrinks {α : Type} (p : α → Prop) (measure : α → Nat) (step : α → α) : Prop where
  /-- the invariant is kept -/
  keep : ∀ x, p x → p (step x)
  /-- a change makes the measure smaller -/
  shrink : ∀ x, p x → step x ≠ x → measure (step x) < measure x

namespace Shrinks

variable {α β : Type} {p : α → Prop} {measure : α → Nat} {f g : α → α}

/-- Changing nothing leaves nothing more to do. -/
theorem refl : Shrinks p measure fun x => x :=
  ⟨fun _ h => h, fun _ _ h => absurd rfl h⟩

/-- A shrinking step never makes the measure larger. -/
theorem measure_le (h : Shrinks p measure f) {x : α} (hx : p x) : measure (f x) ≤ measure x := by
  by_cases hfix : f x = x
  · exact Nat.le_of_eq (congrArg measure hfix)
  · exact Nat.le_of_lt (h.shrink x hx hfix)

/-- Two steps that together change nothing change nothing one by one. -/
theorem eq_of_comp (hf : Shrinks p measure f) (hg : Shrinks p measure g) {x : α} (hx : p x)
    (hfix : g (f x) = x) : f x = x ∧ g x = x := by
  have hle := hg.measure_le (hf.keep x hx)
  rw [hfix] at hle
  -- had the first step made the measure smaller, the second could not bring it back
  have hfx : f x = x := by
    by_contra hne
    exact Nat.not_lt.mpr hle (hf.shrink x hx hne)
  rw [hfx] at hfix
  exact ⟨hfx, hfix⟩

/-- Two shrinking steps one after the other are a shrinking step. -/
theorem comp (hf : Shrinks p measure f) (hg : Shrinks p measure g) :
    Shrinks p measure fun x => g (f x) where
  keep x hx := hg.keep _ (hf.keep x hx)
  shrink x hx hne := by
    have hle := hg.measure_le (hf.keep x hx)
    -- the first step changes something, or the second does the whole change
    by_cases hfx : f x = x
    · rw [hfx] at hne ⊢
      exact hg.shrink x hx hne
    · exact Nat.lt_of_le_of_lt hle (hf.shrink x hx hfx)

/-- Shrinking steps for the elements of a list are a shrinking step. -/
theorem foldl {step : α → β → α} {bs : List β} (h : ∀ b ∈ bs, Shrinks p measure (step · b)) :
    Shrinks p measure fun x => bs.foldl step x := by
  induction bs with
  | nil => exact refl
  | cons b bs ih =>
    have hfirst := h b (List.mem_cons_self ..)
    exact hfirst.comp (ih fun b' hb' => h b' (List.mem_cons_of_mem _ hb'))

/-- When the steps for the elements of a list together change nothing, none of them changes
anything. -/
theorem eq_of_foldl {step : α → β → α} {bs : List β}
    (h : ∀ b ∈ bs, Shrinks p measure (step · b)) {x : α} (hx : p x)
    (hfix : bs.foldl step x = x) : ∀ b ∈ bs, step x b = x := by
  induction bs with
  | nil => exact fun b hb => absurd hb (List.not_mem_nil)
  | cons b bs ih =>
    have hfirst := h b (List.mem_cons_self ..)
    have hrest : ∀ b' ∈ bs, Shrinks p measure (step · b') := fun b' hb' =>
      h b' (List.mem_cons_of_mem _ hb')
    -- neither the first step nor all the others together change anything
    obtain ⟨hb, hbs⟩ := eq_of_comp hfirst (foldl hrest) hx hfix
    intro b' hb'
    rcases List.mem_cons.mp hb' with rfl | hb'
    · exact hb
    · exact ih hrest hbs b' hb'

/-- Repeating a shrinking step more often than the measure says leads to what it does not change. -/
theorem saturate_fixed [DecidableEq α] (h : Shrinks p measure f) {bound : Nat} {x : α} (hx : p x)
    (room : measure x < bound) : f (saturate f bound x) = saturate f bound x :=
  step_saturate h.keep h.shrink hx room

/-- What a shrinking step keeps holds of the result. -/
theorem saturate_keep [DecidableEq α] (h : Shrinks p measure f) (bound : Nat) {x : α} (hx : p x) :
    p (saturate f bound x) :=
  saturate_induction h.keep bound hx

end Shrinks

/-! ## What is missing in a set -/

namespace SymbolSet

variable {σ : Type} [Numbered σ]

/-- How many symbols of a list are not in the set. -/
def missing (all : List σ) (s : SymbolSet σ) : Nat := all.countP (decide <| · ∉ s)

/-- No more symbols are missing than there are. -/
theorem missing_le_length (all : List σ) (s : SymbolSet σ) :
    s.missing all ≤ all.length :=
  List.countP_le_length

/-- Nothing more is missing in a greater set. -/
theorem missing_anti {all : List σ} {s t : SymbolSet σ} (h : ∀ a, a ∈ s → a ∈ t) :
    t.missing all ≤ s.missing all := by
  refine List.countP_mono_left fun a _ ha => ?_
  rw [decide_eq_true_eq] at ha ⊢
  exact fun has => ha (h a has)

/-- Less is missing when a symbol of the list is new. -/
theorem missing_lt {all : List σ} {s t : SymbolSet σ} (h : ∀ a, a ∈ s → a ∈ t) {a : σ}
    (ha : a ∈ all) (has : a ∉ s) (hat : a ∈ t) : t.missing all < s.missing all := by
  induction all with
  | nil => exact absurd ha List.not_mem_nil
  | cons b all ih =>
    have hle : t.missing all ≤ s.missing all := missing_anti h
    unfold missing at hle ih ⊢
    rw [List.countP_cons, List.countP_cons]
    -- the new symbol is at the head, or in the rest, where the induction applies
    rcases List.mem_cons.mp ha with rfl | ha
    · rw [if_neg (by simpa using hat), if_pos (by simpa using has)]
      omega
    · have hlt := ih ha
      by_cases hbt : b ∈ t
      · rw [if_neg (by simpa using hbt)]
        omega
      · rw [if_pos (by simpa using hbt), if_pos (by simpa using fun hbs => hbt (h b hbs))]
        omega

/-- A union that is not the first set has a new member. -/
theorem exists_of_union_ne {s t : SymbolSet σ} (h : s ∪ t ≠ s) : ∃ a, a ∈ t ∧ a ∉ s := by
  by_contra hnone
  refine h (ext fun a => ?_)
  rw [mem_union]
  constructor
  · rintro (has | hat)
    · exact has
    · by_contra has
      exact hnone ⟨a, hat, has⟩
  · exact Or.inl

end SymbolSet

/-! ## Measures of maps -/

namespace OrderedMap

variable {κ α : Type} [DecidableEq κ]

/-- The sum of a measure over some entries. -/
def sumOver (measure : α → Nat) : List (κ × α) → Nat
  | [] => 0
  | e :: rest => measure e.2 + sumOver measure rest

/-- The sum of a measure over all entries. -/
def total (measure : α → Nat) (m : OrderedMap κ α) : Nat := sumOver measure m.entries

/-- What is found under a key is one of the entries. -/
theorem mem_entries_of_get? {m : OrderedMap κ α} {k : κ} {a : α} (h : m.get? k = some a) :
    (k, a) ∈ m.entries := by
  obtain ⟨l⟩ := m
  unfold get? at h
  simp only at h ⊢
  induction l with
  | nil => cases h
  | cons e rest ih =>
    obtain ⟨k', a'⟩ := e
    rw [lookup] at h
    split at h
    · next hk =>
      cases h
      rw [hk]
      exact List.mem_cons_self ..
    · exact List.mem_cons_of_mem _ (ih h)

/-- A key has a value exactly when it is one of the keys. -/
theorem exists_get?_iff {m : OrderedMap κ α} {k : κ} :
    (∃ a, m.get? k = some a) ↔ k ∈ m.keys := by
  obtain ⟨l⟩ := m
  unfold get? keys
  simp only
  induction l with
  | nil => simp [lookup]
  | cons e rest ih =>
    obtain ⟨k', a'⟩ := e
    by_cases hk : k = k'
    · simp [lookup, hk]
    · rw [lookup, if_neg hk, ih, List.map_cons, List.mem_cons]
      simp [hk]

omit [DecidableEq κ] in
/-- A bound on the measure of every value bounds the total. -/
theorem total_le {measure : α → Nat} {bound : Nat} (h : ∀ a, measure a ≤ bound)
    (m : OrderedMap κ α) : m.total measure ≤ m.entries.length * bound := by
  obtain ⟨l⟩ := m
  show sumOver measure l ≤ l.length * bound
  induction l with
  | nil => exact Nat.zero_le _
  | cons e rest ih =>
    have he := h e.2
    rw [sumOver, List.length_cons, Nat.succ_mul]
    omega

/-- Changing a value that has its entry changed makes the sum smaller, if it does so at the value. -/
theorem total_modify_lt {measure : α → Nat} {m : OrderedMap κ α} {k : κ} {f : α → α}
    (h : ∀ e ∈ m.entries, f e.2 ≠ e.2 → measure (f e.2) < measure e.2) (hne : m.modify k f ≠ m) :
    (m.modify k f).total measure < m.total measure := by
  obtain ⟨l⟩ := m
  have hne' : (l.map fun e => if e.1 = k then (e.1, f e.2) else e) ≠ l := fun heq =>
    hne (congrArg OrderedMap.mk heq)
  show sumOver measure (l.map fun e => if e.1 = k then (e.1, f e.2) else e) < sumOver measure l
  clear hne
  induction l with
  | nil => exact absurd rfl hne'
  | cons e rest ih =>
    have hrest : ∀ e ∈ rest, f e.2 ≠ e.2 → measure (f e.2) < measure e.2 := fun e' he' =>
      h e' (List.mem_cons_of_mem _ he')
    have hfirst := h e (List.mem_cons_self ..)
    -- the rest does not grow: either it is unchanged or it shrinks
    have hle : sumOver measure (rest.map fun e => if e.1 = k then (e.1, f e.2) else e) ≤
        sumOver measure rest := by
      by_cases hsame : (rest.map fun e => if e.1 = k then (e.1, f e.2) else e) = rest
      · exact Nat.le_of_eq (by rw [hsame])
      · exact Nat.le_of_lt (ih hrest hsame)
    simp only [List.map_cons, sumOver] at hne' ⊢
    by_cases hk : e.1 = k
    · simp only [hk, if_true] at hne' ⊢
      -- the value at the head is unchanged, so that the rest is not, or it shrinks
      by_cases hf : f e.2 = e.2
      · have hsame : (rest.map fun e => if e.1 = k then (e.1, f e.2) else e) ≠ rest := by
          intro heq
          refine hne' ?_
          rw [hf, heq, ← hk]
        have hlt := ih hrest hsame
        rw [hf]
        omega
      · have hlt := hfirst hf
        omega
    · simp only [hk, if_false] at hne' ⊢
      have hlt := ih hrest fun heq => hne' (by rw [heq])
      omega

end OrderedMap

end ShiftReduce
