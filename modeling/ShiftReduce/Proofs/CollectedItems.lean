import Mathlib.Data.Finset.Card
import ShiftReduce.ItemSet
import ShiftReduce.Proofs.Interning

/-! # Item sets are canonical

Collecting a list of items puts it in order, leaves out what equals its neighbour, and gives the list a form
that depends on its members only (`ItemSet.ofList_eq_iff`). It makes no difference how the list was put in
order (`ItemSet.dedupSorted_eq`), for the order is the one by which items are compared when one is looked
up. Sets of items can therefore be found again in a table of all sets that were met
(`ItemSet.number?_intern_eq_iff`). -/

namespace ShiftReduce

namespace ItemSet

/-! ## Order and members -/

/-- **Only the members of a list matter.** -/
theorem ofList_eq_iff {l l' : List Item} : ofList l = ofList l' ↔ ∀ i, i ∈ l ↔ i ∈ l' := by
  refine ⟨fun h i => ?_, ofList_congr⟩
  rw [← mem_ofList (l := l), h, mem_ofList]

/-- However a list is put in order, the same items are left. -/
theorem dedupSorted_eq {l l' : List Item} (hmem : ∀ i, i ∈ l' ↔ i ∈ l)
    (hsorted : l'.Pairwise (· ≤ ·)) : dedupSorted l' = (ofList l).items := by
  refine eq_of_pairwise_lt (pairwise_dedupSorted hsorted) (ofList l).sorted fun i => ?_
  rw [mem_dedupSorted, hmem]
  exact mem_ofList.symm

/-- **Items that come more than once are counted once.** -/
theorem size_ofList (l : List Item) : (ofList l).size = l.toFinset.card := by
  have hsame : l.toFinset = (ofList l).items.toFinset := by
    ext i
    rw [List.mem_toFinset, List.mem_toFinset]
    exact mem_ofList.symm
  rw [hsame, List.toFinset_card_of_nodup (ofList l).nodup_items]
  rfl

/-! ## Tables of sets -/

/-- **A set that was collected is found again from every list with the same members,** and from no other
one under its number. -/
theorem number?_intern_eq_iff {found : Numbering ItemSet} {l l' : List Item} :
    (found.intern (ofList l)).2.number? (ofList l') = some (found.intern (ofList l)).1 ↔
      ∀ i, i ∈ l' ↔ i ∈ l := by
  have hplace := found.value?_intern (ofList l)
  rw [Numbering.number?_eq_some, hplace, Option.some.injEq, eq_comm, ofList_eq_iff]

/-! ## Collecting -/

/-- A set is the canonical form of a list. -/
structure IsCanonicalFor (l : List Item) (s : ItemSet) : Prop where
  /-- the items come by rule and then by marker, strictly increasing -/
  increasing : s.items.Pairwise fun a b => a.rule < b.rule ∨ a.rule = b.rule ∧ a.marker < b.marker
  /-- they are those of the list -/
  mem_iff : ∀ i, i ∈ s.items ↔ i ∈ l
  /-- the size counts the different items -/
  size : s.size = l.toFinset.card
  /-- an item is found by halving just when it is in the list -/
  contains_iff : ∀ i, s.contains i = true ↔ i ∈ l
  /-- and it is found where it stands -/
  place_iff : ∀ i k, place? s.items i = some k ↔ s.items[k]? = some i
  /-- every way of putting the list in order leads to this set -/
  of_sorted : ∀ l', l'.Perm l → l'.Pairwise (· ≤ ·) → dedupSorted l' = s.items
  /-- another list is collected into this set just when it has the same items -/
  eq_iff : ∀ l', ofList l' = s ↔ ∀ i, i ∈ l' ↔ i ∈ l
  /-- and just then it is found under the number of this set, whatever sets were met before -/
  number_iff : ∀ (found : Numbering ItemSet) l',
    (found.intern s).2.number? (ofList l') = some (found.intern s).1 ↔ ∀ i, i ∈ l' ↔ i ∈ l

/-- **Collecting a list gives its canonical form.** -/
theorem isCanonicalFor_ofList (l : List Item) : (ofList l).IsCanonicalFor l where
  increasing := (ofList l).sorted
  mem_iff _ := mem_ofList
  size := size_ofList l
  contains_iff _ := contains_iff.trans mem_ofList
  place_iff _ _ := place?_eq_some (ofList l).sorted
  of_sorted _ hperm := dedupSorted_eq fun _ => hperm.mem_iff
  eq_iff _ := ofList_eq_iff
  number_iff _ _ := number?_intern_eq_iff

end ItemSet

/-- A list with a repetition and out of order: the halving search, and one that finds nothing. -/
example : (ItemSet.ofList [⟨0, 1⟩, ⟨2, 0⟩, ⟨0, 0⟩, ⟨0, 1⟩]).items = [⟨0, 0⟩, ⟨0, 1⟩, ⟨2, 0⟩] ∧
    ItemSet.place? [⟨0, 0⟩, ⟨0, 1⟩, ⟨2, 0⟩] ⟨2, 0⟩ = some 2 ∧
    ItemSet.place? [⟨0, 0⟩, ⟨0, 1⟩, ⟨2, 0⟩] ⟨1, 0⟩ = none := by
  refine ⟨?_, ?_, ?_⟩ <;> cbv

end ShiftReduce
