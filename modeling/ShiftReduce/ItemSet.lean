import ShiftReduce.Item

/-! # Sets of items

The items of a set are kept in strictly increasing order, so that sets with the same members are equal. -/

namespace ShiftReduce

/-! ## Removing repetitions -/

/-- An ordered list without its repetitions. -/
def dedupSorted : List Item → List Item
  | a :: b :: rest => if a = b then dedupSorted (b :: rest) else a :: dedupSorted (b :: rest)
  | l => l

/-- Dropping repeats keeps every item. -/
theorem mem_dedupSorted {l : List Item} {i : Item} : i ∈ dedupSorted l ↔ i ∈ l := by
  fun_induction dedupSorted l with
  | case1 a rest ih => simp [ih]
  | case2 a b rest h ih => simp [ih]
  | case3 l h => rfl

/-- A sorted list without its repeats ascends strictly. -/
theorem pairwise_dedupSorted {l : List Item} (h : l.Pairwise (· ≤ ·)) :
    (dedupSorted l).Pairwise (· < ·) := by
  fun_induction dedupSorted l with
  | case1 a rest ih => exact ih h.tail
  | case2 a b rest hab ih =>
    refine List.pairwise_cons.2 ⟨fun c hc => ?_, ih h.tail⟩
    rw [mem_dedupSorted] at hc
    have hb := Item.lt_of_le_of_ne ((List.pairwise_cons.1 h).1 b (by simp)) hab
    rcases List.mem_cons.1 hc with rfl | hc
    · exact hb
    · exact Item.lt_of_lt_of_le hb ((List.pairwise_cons.1 h.tail).1 c hc)
  | case3 l hl =>
    match l, hl with
    | [], _ => exact .nil
    | [a], _ => simp
    | a :: b :: rest, hl => exact absurd rfl (hl a b rest)

/-- A strictly increasing list is determined by its members. -/
theorem eq_of_pairwise_lt {l m : List Item} (hl : l.Pairwise (· < ·)) (hm : m.Pairwise (· < ·))
    (h : ∀ i, i ∈ l ↔ i ∈ m) : l = m := by
  induction l generalizing m with
  | nil =>
    cases m with
    | nil => rfl
    | cons b m => exact absurd ((h b).2 (by simp)) (by simp)
  | cons a l ih =>
    cases m with
    | nil => exact absurd ((h a).1 (by simp)) (by simp)
    | cons b m =>
      have hla := List.pairwise_cons.1 hl
      have hmb := List.pairwise_cons.1 hm
      have hab : a = b := by
        rcases List.mem_cons.1 ((h a).1 (by simp)) with hab | hab
        · exact hab
        · rcases List.mem_cons.1 ((h b).2 (by simp)) with hba | hba
          · exact hba.symm
          · have h₁ := hmb.1 a hab
            have h₂ := hla.1 b hba
            exact absurd (Item.lt_of_lt_of_le h₁ (Item.le_of_lt h₂)) (Item.lt_irrefl b)
      subst hab
      refine congrArg (a :: ·) (ih hla.2 hmb.2 fun i => ?_)
      have hi := h i
      simp only [List.mem_cons] at hi
      constructor
      · intro hil
        rcases hi.1 (Or.inr hil) with rfl | him
        · exact absurd (hla.1 i hil) (Item.lt_irrefl i)
        · exact him
      · intro him
        rcases hi.2 (Or.inr him) with rfl | hil
        · exact absurd (hmb.1 i him) (Item.lt_irrefl i)
        · exact hil

/-! ## Item sets -/

/-- A finite set of items. -/
structure ItemSet where
  /-- the items, in strictly increasing order -/
  items : List Item
  /-- the order is strictly increasing -/
  sorted : items.Pairwise (· < ·)

namespace ItemSet

instance : DecidableEq ItemSet := fun a b =>
  decidable_of_iff (a.items = b.items) (by cases a; cases b; simp)

instance : Hashable ItemSet := ⟨fun s => hash s.items⟩

instance : Membership Item ItemSet := ⟨fun s i => i ∈ s.items⟩

instance (i : Item) (s : ItemSet) : Decidable (i ∈ s) := inferInstanceAs (Decidable (i ∈ s.items))

/-- The set of the items in a list. -/
def ofList (l : List Item) : ItemSet where
  items := dedupSorted (l.mergeSort Item.ble)
  sorted := pairwise_dedupSorted <|
    (List.pairwise_mergeSort Item.ble_trans Item.ble_total l).imp of_decide_eq_true

/-- The items of either set. -/
def union (s t : ItemSet) : ItemSet where
  items := dedupSorted (List.merge s.items t.items Item.ble)
  sorted := pairwise_dedupSorted <|
    (List.pairwise_merge Item.ble_trans Item.ble_total s.items t.items
      (s.sorted.imp fun h => decide_eq_true (Item.le_of_lt h))
      (t.sorted.imp fun h => decide_eq_true (Item.le_of_lt h))).imp of_decide_eq_true

instance : Union ItemSet := ⟨union⟩

/-- The items that pass a test. -/
def filter (s : ItemSet) (p : Item → Bool) : ItemSet := ⟨s.items.filter p, s.sorted.filter p⟩

/-- The number of items. -/
def size (s : ItemSet) : Nat := s.items.length

/-- Whether there are no items. -/
def isEmpty (s : ItemSet) : Bool := s.items.isEmpty

/-! ## Members -/

/-- An item is in a set when the sorted list has it. -/
theorem mem_def {i : Item} {s : ItemSet} : i ∈ s ↔ i ∈ s.items := Iff.rfl

/-- The set of a list has the items of the list. -/
@[simp] theorem mem_ofList {i : Item} {l : List Item} : i ∈ ofList l ↔ i ∈ l := by
  simp [mem_def, ofList, mem_dedupSorted]

/-- A union has the items of both sets. -/
@[simp] theorem mem_union {i : Item} {s t : ItemSet} : i ∈ s ∪ t ↔ i ∈ s ∨ i ∈ t := by
  simp [mem_def, Union.union, union, mem_dedupSorted, List.mem_merge]

/-- A filtered set has the items that pass the test. -/
@[simp] theorem mem_filter {i : Item} {s : ItemSet} {p : Item → Bool} :
    i ∈ s.filter p ↔ i ∈ s ∧ p i = true := by
  simp [mem_def, filter]

/-- Sets with the same members are equal. -/
theorem ext {s t : ItemSet} (h : ∀ i, i ∈ s ↔ i ∈ t) : s = t := by
  obtain ⟨l, hl⟩ := s
  obtain ⟨m, hm⟩ := t
  have : l = m := eq_of_pairwise_lt hl hm h
  subst this
  rfl

/-- Lists with the same members give the same set. -/
theorem ofList_congr {l l' : List Item} (h : ∀ i, i ∈ l ↔ i ∈ l') : ofList l = ofList l' :=
  ext fun i => by rw [mem_ofList, mem_ofList, h]

/-- The list of a set has no item twice. -/
theorem nodup_items (s : ItemSet) : s.items.Nodup := by
  refine List.Pairwise.imp (fun {a b} hlt => ?_) s.sorted
  rintro rfl
  exact Item.lt_irrefl a hlt

/-! ## Looking for an item

The items are in order, so that half of them can be left out after each comparison. -/

/-- The only place where an item can be among `size` items from place `base` on. -/
def narrow (items : List Item) (i : Item) (base size : Nat) (fits : base + size ≤ items.length) :
    Nat :=
  if single : size ≤ 1 then base
  else
    let half := size / 2
    have middle : base + half < items.length := by omega
    if items[base + half].compare i = .gt then narrow items i base (size - half) (by omega)
    else narrow items i (base + half) (size - half) (by omega)
termination_by size

/-- The place of an item, if it is there. -/
def place? (items : List Item) (i : Item) : Option Nat :=
  let place := narrow items i 0 items.length (Nat.le_of_eq (Nat.zero_add _))
  if items[place]?.any (·.compare i = .eq) then some place else none

/-- Whether an item is in the set. -/
def contains (s : ItemSet) (i : Item) : Bool := (place? s.items i).isSome

/-- The half that is left out does not have the item. -/
theorem narrow_eq {items : List Item} (sorted : items.Pairwise (· < ·)) {i : Item} {base size k : Nat}
    {fits : base + size ≤ items.length} (hk : items[k]? = some i) (lower : base ≤ k)
    (upper : k < base + size) : narrow items i base size fits = k := by
  have increasing := List.pairwise_iff_getElem.1 sorted
  obtain ⟨hlt, hget⟩ := List.getElem?_eq_some_iff.1 hk
  fun_induction narrow items i base size fits with
  | case1 base size fits single => omega
  | case2 base size fits several half middle greater ih =>
    rw [Item.compare_eq_gt, ← hget] at greater
    refine ih lower ?_
    have : k < base + half := by
      refine Nat.lt_of_not_le fun hle => ?_
      rcases Nat.eq_or_lt_of_le hle with heq | hlater
      · simp only [heq] at greater
        exact Item.lt_irrefl _ greater
      · have h := increasing _ _ middle hlt hlater
        exact Item.lt_irrefl _ (Item.lt_of_lt_of_le greater (Item.le_of_lt h))
    omega
  | case3 base size fits several half middle notGreater ih =>
    rw [Item.compare_eq_gt, ← hget] at notGreater
    refine ih (Nat.le_of_not_lt fun hearlier => ?_) (by omega)
    exact notGreater (increasing _ _ hlt middle hearlier)

/-- An item is found at its place. -/
theorem place?_eq_some {items : List Item} (sorted : items.Pairwise (· < ·)) {i : Item} {k : Nat} :
    place? items i = some k ↔ items[k]? = some i := by
  simp only [place?, Option.ite_none_right_eq_some, Option.any_eq_true, decide_eq_true_eq,
    Item.compare_eq_eq, Option.some.injEq]
  constructor
  · rintro ⟨⟨j, hj, rfl⟩, rfl⟩
    exact hj
  · intro hk
    have hlt := (List.getElem?_eq_some_iff.1 hk).1
    have heq : narrow items i 0 items.length (Nat.le_of_eq (Nat.zero_add _)) = k :=
      narrow_eq sorted hk (Nat.zero_le k) (by omega)
    exact ⟨⟨i, by rw [heq, hk], rfl⟩, heq⟩

/-- An item is found exactly when it is in the set. -/
@[simp] theorem contains_iff {s : ItemSet} {i : Item} : s.contains i = true ↔ i ∈ s := by
  simp only [contains, Option.isSome_iff_exists, place?_eq_some s.sorted, mem_def,
    List.mem_iff_getElem?]

end ItemSet

end ShiftReduce
