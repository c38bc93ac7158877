import Std.Data.HashMap

/-! # Numbering by first appearance

Values are numbered `0, 1, 2, …` in the order in which they are first met. The table goes both ways,
and the two ways agree by construction. -/

namespace ShiftReduce

/-- Distinct values with their numbers. -/
structure Numbering (α : Type) [BEq α] [Hashable α] where
  /-- the values, each at its number -/
  values : Array α
  /-- the number of each value -/
  numbers : Std.HashMap α Nat
  /-- the two tables agree -/
  getElem?_numbers : ∀ (a : α) (i : Nat), numbers[a]? = some i ↔ values[i]? = some a

namespace Numbering

variable {α : Type} [BEq α] [Hashable α]

/-- No value is numbered yet. -/
def empty : Numbering α where
  values := #[]
  numbers := ∅
  getElem?_numbers := by simp

/-- How many values are numbered. -/
def size (t : Numbering α) : Nat := t.values.size

/-- The number of a value, if it has one. -/
def number? (t : Numbering α) (a : α) : Option Nat := t.numbers[a]?

/-- The value with a given number, if there is one. -/
def value? (t : Numbering α) (i : Nat) : Option α := t.values[i]?

/-- A value has a number when the number has the value. -/
theorem number?_eq_some {t : Numbering α} {a : α} {i : Nat} :
    t.number? a = some i ↔ t.value? i = some a :=
  t.getElem?_numbers a i

/-- A value has one number only. -/
theorem value?_inj {t : Numbering α} {a : α} {i j : Nat} (hi : t.value? i = some a)
    (hj : t.value? j = some a) : i = j := by
  rw [← number?_eq_some] at hi hj
  exact Option.some.inj (hi.symm.trans hj)

/-- A value without a number is the value of no number. -/
theorem number?_eq_none {t : Numbering α} {a : α} :
    t.number? a = none ↔ ∀ i, t.value? i ≠ some a := by
  rw [Option.eq_none_iff_forall_ne_some]
  exact forall_congr' fun i => not_congr number?_eq_some

/-- Nothing is numbered at the start. -/
@[simp] theorem value?_empty (i : Nat) : (empty : Numbering α).value? i = none := by
  simp [empty, value?]

variable [LawfulBEq α]

/-- Gives the next number to a value that has none. -/
def add (t : Numbering α) (a : α) (fresh : t.number? a = none) : Numbering α :=
  let next := t.values.size
  { values := t.values.push a
    numbers := t.numbers.insert a next
    getElem?_numbers := fun b i => by
      have old := t.getElem?_numbers
      have absent := number?_eq_none.1 fresh
      rw [Std.HashMap.getElem?_insert, Array.getElem?_push]
      by_cases hab : a = b
      · subst hab
        by_cases hi : i = t.values.size
        · simp [hi, next]
        · have := absent i
          simp only [value?] at this
          simp [hi, this, eq_comm, next]
      · by_cases hi : i = t.values.size
        · simp only [beq_iff_eq, hab, if_false, hi, if_true, Option.some.injEq, iff_false]
          rw [old]
          simp
        · simp [hab, hi, old] }

/-- The number of a value, which gets the next free number if it had none. -/
def intern (t : Numbering α) (a : α) : Nat × Numbering α :=
  match h : t.number? a with
  | some i => (i, t)
  | none => (t.size, t.add a h)

/-- A new value takes the next number and moves no other. -/
theorem value?_add (t : Numbering α) (a : α) (fresh : t.number? a = none) (i : Nat) :
    (t.add a fresh).value? i = if i = t.size then some a else t.value? i :=
  Array.getElem?_push

/-- Adding a value uses up one number. -/
@[simp] theorem size_add (t : Numbering α) (a : α) (fresh : t.number? a = none) :
    (t.add a fresh).size = t.size + 1 := by
  simp [add, size]

/-- The number that is handed out is the value's number afterwards. -/
theorem value?_intern (t : Numbering α) (a : α) :
    (t.intern a).2.value? (t.intern a).1 = some a := by
  unfold intern
  split
  · next i h => exact number?_eq_some.1 h
  · next h => simp [value?_add]

/-- Numbers that were given out before stay as they were. -/
theorem value?_intern_of_value? {t : Numbering α} {b : α} {i : Nat} (a : α)
    (h : t.value? i = some b) : (t.intern a).2.value? i = some b := by
  unfold intern
  split
  · exact h
  · have : i < t.size := (Array.getElem?_eq_some_iff.1 h).1
    simp [value?_add, Nat.ne_of_lt this, h]

/-- All values, in the order of their numbers. -/
def toList (t : Numbering α) : List α := t.values.toList

end Numbering

end ShiftReduce
