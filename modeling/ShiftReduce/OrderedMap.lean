/-! # Maps that keep the order of insertion

A key keeps the place at which it was first inserted, also when its value is replaced. -/

namespace ShiftReduce

/-- A finite map whose entries are in the order of insertion. -/
structure OrderedMap (κ α : Type) where
  /-- the entries -/
  entries : List (κ × α) := []

namespace OrderedMap

variable {κ α : Type} [DecidableEq κ]

/-- The value of the first entry with a key. -/
def lookup (k : κ) : List (κ × α) → Option α
  | [] => none
  | (k', a) :: rest => if k = k' then some a else lookup k rest

/-- The value at a key, if there is one. -/
def get? (m : OrderedMap κ α) (k : κ) : Option α := lookup k m.entries

/-- The keys, in order. -/
def keys (m : OrderedMap κ α) : List κ := m.entries.map (·.1)

/-- Entries with `k` set to `a`: in its place if it is there, else at the end. -/
def assign (k : κ) (a : α) : List (κ × α) → List (κ × α)
  | [] => [(k, a)]
  | (k', a') :: rest => if k = k' then (k, a) :: rest else (k', a') :: assign k a rest

/-- Sets the value at a key. -/
def insert (m : OrderedMap κ α) (k : κ) (a : α) : OrderedMap κ α := ⟨assign k a m.entries⟩

/-- Changes the value at a key that has one. -/
def modify (m : OrderedMap κ α) (k : κ) (f : α → α) : OrderedMap κ α :=
  ⟨m.entries.map fun e => if e.1 = k then (e.1, f e.2) else e⟩

/-- The map that gives each of some keys the same value. -/
def ofKeys (keys : List κ) (a : α) : OrderedMap κ α := ⟨keys.map (·, a)⟩

instance [DecidableEq α] : DecidableEq (OrderedMap κ α) := fun ⟨a⟩ ⟨b⟩ =>
  decidable_of_iff (a = b) (by simp)

/-! ## Lookups -/

/-- Assigning to a key changes what is found there and nowhere else. -/
theorem lookup_assign (k k' : κ) (a : α) (l : List (κ × α)) :
    lookup k' (assign k a l) = if k' = k then some a else lookup k' l := by
  induction l with
  | nil => rfl
  | cons e rest ih =>
    obtain ⟨k₁, a₁⟩ := e
    by_cases h₁ : k = k₁
    · subst h₁
      by_cases h : k' = k <;> simp [assign, lookup, h]
    · by_cases h₂ : k' = k₁
      · subst h₂
        simp [assign, lookup, h₁, Ne.symm h₁]
      · simp [assign, lookup, h₁, h₂, ih]

/-- An insertion is found under its key and leaves the other keys as they were. -/
@[simp] theorem get?_insert (m : OrderedMap κ α) (k k' : κ) (a : α) :
    (m.insert k a).get? k' = if k' = k then some a else m.get? k' :=
  lookup_assign k k' a m.entries

/-- A modification reaches the value under its key, if there is one, and no other. -/
@[simp] theorem get?_modify (m : OrderedMap κ α) (k k' : κ) (f : α → α) :
    (m.modify k f).get? k' = if k' = k then (m.get? k').map f else m.get? k' := by
  obtain ⟨l⟩ := m
  simp only [modify, get?]
  induction l with
  | nil => simp [lookup]
  | cons e rest ih =>
    obtain ⟨k₁, a₁⟩ := e
    by_cases h₂ : k' = k₁
    · subst h₂
      by_cases h : k' = k <;> simp [lookup, h]
    · by_cases h₁ : k₁ = k
      · subst h₁
        simpa [lookup, h₂] using ih
      · simpa [lookup, h₁, h₂] using ih

/-- A map of equal values has exactly the keys it was made from. -/
@[simp] theorem get?_ofKeys (keys : List κ) (k : κ) (a : α) :
    (ofKeys keys a).get? k = if k ∈ keys then some a else none := by
  simp only [get?, ofKeys]
  induction keys with
  | nil => simp [lookup]
  | cons k₁ rest ih => by_cases h : k = k₁ <;> simp [lookup, h, ih]

omit [DecidableEq κ] in
/-- The keys stand in the order they were given in. -/
@[simp] theorem keys_ofKeys (keys : List κ) (a : α) : (ofKeys keys a).keys = keys := by
  simp only [OrderedMap.keys, ofKeys, List.map_map]
  exact List.map_id keys

/-- A modification adds no key and moves none. -/
@[simp] theorem keys_modify (m : OrderedMap κ α) (k : κ) (f : α → α) :
    (m.modify k f).keys = m.keys := by
  simp only [keys, modify, List.map_map]
  refine List.map_congr_left fun e _ => ?_
  by_cases h : e.1 = k <;> simp [h]

/-- A new key goes to the end, and an old one stays in its place. -/
theorem keys_insert (m : OrderedMap κ α) (k : κ) (a : α) :
    (m.insert k a).keys = if k ∈ m.keys then m.keys else m.keys ++ [k] := by
  obtain ⟨l⟩ := m
  simp only [keys, insert]
  induction l with
  | nil => simp [assign]
  | cons e rest ih =>
    obtain ⟨k₁, a₁⟩ := e
    by_cases h : k = k₁
    · simp [assign, h]
    · by_cases hk : k ∈ rest.map (·.1) <;> simp_all [assign]

end OrderedMap

end ShiftReduce
