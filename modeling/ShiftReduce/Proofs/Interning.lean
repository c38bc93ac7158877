import ShiftReduce.Numbering
import Mathlib.Data.List.Nodup
import Mathlib.Data.Set.Function
import Mathlib.Order.Interval.Set.Defs

/-! # Numberings as lists

The values of a numbering, read in the order of their numbers, are a list without repetitions: interning
a value appends it unless it is there, and its number is its place in the list. So a numbering of what
was met one after the other is `eraseDups` of the list of all that was met. -/

namespace ShiftReduce

/-! ## Lists without repetitions -/

section EraseDups

variable {α : Type} [BEq α] [LawfulBEq α]

/-- Keeping the first copies of a list leaves no copies. -/
theorem nodup_eraseDups : ∀ l : List α, l.eraseDups.Nodup
  | [] => List.nodup_nil
  | a :: l => by
    rw [List.eraseDups_cons, List.nodup_cons]
    -- the recursion is on the list without the copies of its head
    refine ⟨?_, nodup_eraseDups _⟩
    intro ha
    rw [List.mem_eraseDups, List.mem_filter] at ha
    simp at ha
termination_by l => l.length
decreasing_by exact Nat.lt_succ_of_le (List.length_filter_le _ l)

/-- An element that does not come again is the first of the first copies. -/
theorem eraseDups_cons_of_not_mem {l : List α} {a : α} (h : a ∉ l) :
    (a :: l).eraseDups = a :: l.eraseDups := by
  have hfilter : (l.filter fun b => !b == a) = l := by
    rw [List.filter_eq_self]
    intro b hb
    have hne : b ≠ a := fun hba => h (hba ▸ hb)
    simpa using hne
  rw [List.eraseDups_cons, hfilter]

/-- A list without repetitions is its own list of first copies. -/
theorem eraseDups_of_nodup {l : List α} (h : l.Nodup) : l.eraseDups = l := by
  induction l with
  | nil => rfl
  | cons a l ih =>
    rw [List.nodup_cons] at h
    rw [eraseDups_cons_of_not_mem h.1, ih h.2]

/-- One more element is appended to the first copies, unless it is there. -/
theorem eraseDups_concat (l : List α) (a : α) :
    (l ++ [a]).eraseDups = if a ∈ l then l.eraseDups else l.eraseDups ++ [a] := by
  rw [List.eraseDups_append]
  by_cases ha : a ∈ l
  · have hnone : [a].removeAll l = [] := by simp [List.removeAll, ha]
    rw [if_pos ha, hnone, List.eraseDups_nil, List.append_nil]
  · have hself : [a].removeAll l = [a] := by simp [List.removeAll, ha]
    rw [if_neg ha, hself]
    rfl

/-- The first copies of a longer list begin with those of the shorter one. -/
theorem eraseDups_prefix_append (l m : List α) : l.eraseDups <+: (l ++ m).eraseDups := by
  rw [List.eraseDups_append]
  exact List.prefix_append _ _

/-- Taking first copies of a front part first makes no difference. -/
theorem eraseDups_eraseDups_append (l m : List α) :
    (l.eraseDups ++ m).eraseDups = (l ++ m).eraseDups := by
  rw [List.eraseDups_append, List.eraseDups_append, eraseDups_of_nodup (nodup_eraseDups l)]
  -- what is removed from the second list only depends on the members of the first
  congr 2
  unfold List.removeAll
  refine List.filter_congr fun a _ => ?_
  simp only [List.elem_eq_mem, List.mem_eraseDups]

/-- The place of an element stays the same when a list grows at its end. -/
theorem idxOf_eq_of_isPrefix {l m : List α} (h : l <+: m) {a : α} (ha : a ∈ l) :
    m.idxOf a = l.idxOf a := by
  obtain ⟨rest, rfl⟩ := h
  exact List.idxOf_append_of_mem ha

/-- The value at a place of a list without repetitions has that place. -/
theorem idxOf_of_getElem? {l : List α} (h : l.Nodup) {i : Nat} {a : α} (ha : l[i]? = some a) :
    l.idxOf a = i := by
  obtain ⟨hi, rfl⟩ := List.getElem?_eq_some_iff.mp ha
  exact h.idxOf_getElem i hi

/-- An element that comes for the first time goes behind the first copies of what came before. -/
theorem idxOf_eraseDups_append {l : List α} {a : α} (h : a ∉ l) (rest : List α) :
    (l ++ a :: rest).eraseDups.idxOf a = l.eraseDups.length := by
  have hnew : (a :: rest).removeAll l = a :: rest.removeAll l := by
    simp [List.removeAll, h]
  have hfirst : a ∉ l.eraseDups := by
    rwa [List.mem_eraseDups]
  rw [List.eraseDups_append, hnew, List.eraseDups_cons, List.idxOf_append_of_notMem hfirst,
    List.idxOf_cons_self, Nat.add_zero]

/-! ### Images of lists -/

variable {β : Type} [BEq β] [LawfulBEq β] {f : α → β}

/-- The first copies of what a function makes of a list, when it keeps its elements apart. -/
theorem eraseDups_map : ∀ {l : List α}, (∀ a ∈ l, ∀ b ∈ l, f a = f b → a = b) →
    (l.map f).eraseDups = l.eraseDups.map f
  | [], _ => rfl
  | a :: l, hf => by
    -- the copies of the head are dropped before and after
    have hfilter : (l.map f).filter (fun b => !b == f a) = (l.filter fun b => !b == a).map f := by
      rw [List.filter_map]
      refine congrArg (List.map f) (List.filter_congr fun b hb => ?_)
      have hiff : f b = f a ↔ b = a :=
        ⟨hf b (List.mem_cons_of_mem _ hb) a (List.mem_cons_self ..), congrArg f⟩
      simp [hiff]
    have hrest : ∀ b ∈ l.filter fun b => !b == a, ∀ c ∈ l.filter fun b => !b == a,
        f b = f c → b = c := fun b hb c hc =>
      hf b (List.mem_cons_of_mem _ (List.mem_filter.mp hb).1) c
        (List.mem_cons_of_mem _ (List.mem_filter.mp hc).1)
    rw [List.map_cons, List.eraseDups_cons, List.eraseDups_cons, List.map_cons, hfilter,
      eraseDups_map hrest]
termination_by l => l.length
decreasing_by exact Nat.lt_succ_of_le (List.length_filter_le _ l)

/-- An element has the place that what a function makes of it has in the image of the list. -/
theorem idxOf_map {l : List α} {a : α} (hf : ∀ b ∈ l, f b = f a → b = a) :
    (l.map f).idxOf (f a) = l.idxOf a := by
  induction l with
  | nil => rfl
  | cons b l ih =>
    rw [List.map_cons]
    by_cases hba : b = a
    · rw [hba, List.idxOf_cons_self, List.idxOf_cons_self]
    · have hne : f b ≠ f a := fun h => hba (hf b (List.mem_cons_self ..) h)
      rw [List.idxOf_cons_ne _ hne, List.idxOf_cons_ne _ hba,
        ih fun c hc => hf c (List.mem_cons_of_mem _ hc)]

/-! ### Places in another list -/

/-- The place in another list of what stands at a place of a list; places behind the list are moved
behind the other one. -/
def renumber (l l' : List α) (i : Nat) : Nat :=
  match l[i]? with
  | some a => l'.idxOf a
  | none => i + l'.length

section Renumber

variable {l l' : List α} {a : α} {i : Nat}

omit [LawfulBEq α] in
/-- The old place of a value gets its new place. -/
theorem renumber_of_getElem? (h : l[i]? = some a) : renumber l l' i = l'.idxOf a := by
  unfold renumber
  rw [h]

/-- The first place of a value gets its first place in the other list. -/
theorem renumber_idxOf (h : a ∈ l) : renumber l l' (l.idxOf a) = l'.idxOf a :=
  renumber_of_getElem? (List.getElem?_idxOf h)

/-- The same stands at the other place. -/
theorem getElem?_renumber (hsub : ∀ a ∈ l, a ∈ l') (i : Nat) : l'[renumber l l' i]? = l[i]? := by
  cases ha : l[i]? with
  | none =>
    unfold renumber
    rw [ha]
    exact List.getElem?_eq_none (Nat.le_add_left _ i)
  | some a =>
    rw [renumber_of_getElem? ha]
    exact List.getElem?_idxOf (hsub a (List.mem_of_getElem? ha))

/-- Different places get different places, when no value of the first list is lost. -/
theorem renumber_injective (hl : l.Nodup) (hsub : ∀ a ∈ l, a ∈ l') :
    Function.Injective (renumber l l') := by
  intro i j hij
  unfold renumber at hij
  cases hi : l[i]? with
  | none =>
    cases hj : l[j]? with
    | none =>
      rw [hi, hj] at hij
      exact Nat.add_right_cancel hij
    | some b =>
      rw [hi, hj] at hij
      have hlt := List.idxOf_lt_length_of_mem (hsub b (List.mem_of_getElem? hj))
      simp only at hij
      omega
  | some a =>
    have ha := hsub a (List.mem_of_getElem? hi)
    cases hj : l[j]? with
    | none =>
      rw [hi, hj] at hij
      have hlt := List.idxOf_lt_length_of_mem ha
      simp only at hij
      omega
    | some b =>
      rw [hi, hj] at hij
      obtain rfl : a = b := (List.idxOf_inj ha).mp hij
      rw [← idxOf_of_getElem? hl hi, ← idxOf_of_getElem? hl hj]

/-- Lists of the same elements have their places in one to one correspondence. -/
theorem bijOn_renumber (hl : l.Nodup) (hl' : l'.Nodup) (hmem : ∀ a, a ∈ l ↔ a ∈ l') :
    Set.BijOn (renumber l l') (Set.Iio l.length) (Set.Iio l'.length) := by
  refine ⟨fun i hi => ?_, (renumber_injective hl fun a => (hmem a).mp).injOn, fun j hj => ?_⟩
  · have hlt : i < l.length := hi
    have ha : l[i]? = some l[i] := List.getElem?_eq_getElem hlt
    rw [renumber_of_getElem? ha]
    exact List.idxOf_lt_length_of_mem ((hmem _).mp (List.mem_of_getElem? ha))
  · have hlt : j < l'.length := hj
    have ha : l'[j]? = some l'[j] := List.getElem?_eq_getElem hlt
    have hback := (hmem _).mpr (List.mem_of_getElem? ha)
    refine ⟨l.idxOf l'[j], List.idxOf_lt_length_of_mem hback, ?_⟩
    rw [renumber_idxOf hback, idxOf_of_getElem? hl' ha]

end Renumber

end EraseDups

/-! ## The list behind a numbering -/

namespace Numbering

variable {α : Type} [BEq α] [Hashable α]

/-- The values stand at their numbers. -/
theorem getElem?_toList (t : Numbering α) (i : Nat) : t.toList[i]? = t.value? i :=
  Array.getElem?_toList

/-- There are as many values as numbers. -/
@[simp] theorem length_toList (t : Numbering α) : t.toList.length = t.size :=
  Array.length_toList

/-- Nothing is numbered at the start. -/
@[simp] theorem toList_empty : (empty : Numbering α).toList = [] := rfl

/-- A value is numbered when some number has it. -/
theorem mem_toList {t : Numbering α} {a : α} : a ∈ t.toList ↔ ∃ i, t.value? i = some a := by
  simp_rw [List.mem_iff_getElem?, getElem?_toList]

/-- A value has no number when it is not among the numbered ones. -/
theorem number?_eq_none_iff {t : Numbering α} {a : α} : t.number? a = none ↔ a ∉ t.toList := by
  rw [number?_eq_none, mem_toList, not_exists]

/-- No value is listed twice. -/
theorem nodup_toList (t : Numbering α) : t.toList.Nodup := by
  -- equal values at two places would have two numbers
  rw [List.nodup_iff_injective_getElem]
  intro i j hij
  have hi := List.getElem?_eq_getElem i.isLt
  have hj := List.getElem?_eq_getElem j.isLt
  rw [getElem?_toList] at hi hj
  exact Fin.ext (value?_inj hi (hj.trans (congrArg some hij.symm)))

/-- Values that are the same under other numbers get these numbers. -/
theorem number?_eq_map {t t' : Numbering α} {f : Nat → Nat}
    (hvalue : ∀ i, t'.value? (f i) = t.value? i) (hmem : ∀ a ∈ t'.toList, a ∈ t.toList) (a : α) :
    t'.number? a = (t.number? a).map f := by
  cases hi : t.number? a with
  | none => exact number?_eq_none_iff.mpr fun ha => number?_eq_none_iff.mp hi (hmem a ha)
  | some i => exact number?_eq_some.mpr ((hvalue i).trans (number?_eq_some.mp hi))

variable [LawfulBEq α]

/-- The list has its first copies only. -/
theorem toList_eq_eraseDups (t : Numbering α) : t.toList = t.toList.eraseDups :=
  (eraseDups_of_nodup t.nodup_toList).symm

/-- The value with a number stands at that place. -/
theorem idxOf_of_value? {t : Numbering α} {a : α} {i : Nat} (h : t.value? i = some a) :
    t.toList.idxOf a = i :=
  idxOf_of_getElem? t.nodup_toList ((t.getElem?_toList i).trans h)

/-- Interning a value that is there changes nothing. -/
theorem intern_of_value? {t : Numbering α} {a : α} {i : Nat} (h : t.value? i = some a) :
    t.intern a = (i, t) := by
  unfold intern
  split
  · next j hj => rw [value?_inj (number?_eq_some.mp hj) h]
  · next hn => exact absurd h (number?_eq_none.mp hn i)

/-- Interning appends a value that is not there. -/
theorem toList_intern (t : Numbering α) (a : α) :
    (t.intern a).2.toList = if a ∈ t.toList then t.toList else t.toList ++ [a] := by
  unfold intern
  split
  · next i hi => rw [if_pos (mem_toList.mpr ⟨i, number?_eq_some.mp hi⟩)]
  · next hn =>
    rw [if_neg (number?_eq_none_iff.mp hn)]
    exact Array.toList_push

/-- The number that interning gives is the place of the value afterwards. -/
theorem intern_fst (t : Numbering α) (a : α) :
    (t.intern a).1 = (t.intern a).2.toList.idxOf a :=
  (idxOf_of_value? (value?_intern t a)).symm

/-- Interning one value after the other lists their first copies. -/
theorem toList_intern_eraseDups {t : Numbering α} {l : List α} (h : t.toList = l.eraseDups) (a : α) :
    (t.intern a).2.toList = (l ++ [a]).eraseDups := by
  rw [toList_intern, eraseDups_concat, h]
  simp only [List.mem_eraseDups]

end Numbering

end ShiftReduce
