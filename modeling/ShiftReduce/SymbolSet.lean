import ShiftReduce.Symbol

/-! # Sets of symbols

A finite set of symbols of one class is kept as the binary digits of a number: the symbol numbered `i`
is in the set when digit `i` is one. Sets with the same members are therefore equal, and their members
come in the order of their numbers. -/

namespace ShiftReduce

/-- Symbols that are their numbers. -/
class Numbered (σ : Type) where
  /-- the number of a symbol -/
  number : σ → Nat
  /-- the symbol with a given number -/
  ofNumber : Nat → σ
  /-- a symbol is the one with its number -/
  ofNumber_number : ∀ s, ofNumber (number s) = s
  /-- the symbol with a number has that number -/
  number_ofNumber : ∀ i, number (ofNumber i) = i

instance : Numbered Terminal := ⟨Terminal.number, Terminal.mk, fun _ => rfl, fun _ => rfl⟩

instance : Numbered Nonterminal := ⟨Nonterminal.number, Nonterminal.mk, fun _ => rfl, fun _ => rfl⟩

/-- A finite set of symbols. -/
structure SymbolSet (σ : Type) where
  /-- the number whose binary digits are the set -/
  digits : Nat
  deriving DecidableEq

/-- A set of terminals. -/
abbrev TerminalSet := SymbolSet Terminal

namespace SymbolSet

variable {σ : Type} [Numbered σ]

instance : Membership σ (SymbolSet σ) :=
  ⟨fun s a => s.digits.testBit (Numbered.number a) = true⟩

instance (a : σ) (s : SymbolSet σ) : Decidable (a ∈ s) :=
  inferInstanceAs (Decidable (s.digits.testBit (Numbered.number a) = true))

instance : EmptyCollection (SymbolSet σ) := ⟨⟨0⟩⟩

/-- The set with one more member. -/
def insert (a : σ) (s : SymbolSet σ) : SymbolSet σ :=
  ⟨s.digits ||| 1 <<< Numbered.number a⟩

/-- The members of either set. -/
def union (s t : SymbolSet σ) : SymbolSet σ := ⟨s.digits ||| t.digits⟩

instance : Union (SymbolSet σ) := ⟨union⟩

instance : Singleton σ (SymbolSet σ) := ⟨fun a => insert a ∅⟩

/-- The members, by increasing number. -/
def toList (s : SymbolSet σ) : List σ :=
  ((List.range (s.digits.log2 + 1)).filter s.digits.testBit).map Numbered.ofNumber

/-- The set of the members of a list. -/
def ofList (l : List σ) : SymbolSet σ := l.foldl (fun s a => s.insert a) ∅

/-- The number of members. -/
def size (s : SymbolSet σ) : Nat := s.toList.length

/-- Whether the set has no members. -/
def isEmpty (s : SymbolSet σ) : Bool := s.digits == 0

/-! ## Members -/

/-- A symbol is in a set when the digit at its number is set. -/
theorem mem_def {a : σ} {s : SymbolSet σ} :
    a ∈ s ↔ s.digits.testBit (Numbered.number a) = true := Iff.rfl

/-- Nothing is in the empty set. -/
@[simp] theorem not_mem_empty (a : σ) : a ∉ (∅ : SymbolSet σ) := by
  simp [mem_def, EmptyCollection.emptyCollection]

/-- Symbols with the same number are the same. -/
theorem number_inj {a b : σ} : Numbered.number a = Numbered.number b ↔ a = b :=
  ⟨fun h => by rw [← Numbered.ofNumber_number a, h, Numbered.ofNumber_number], fun h => h ▸ rfl⟩

/-- An insertion adds one symbol. -/
@[simp] theorem mem_insert {a b : σ} {s : SymbolSet σ} : a ∈ s.insert b ↔ a = b ∨ a ∈ s := by
  simp only [mem_def, insert, Nat.testBit_or, Nat.one_shiftLeft, Nat.testBit_two_pow,
    Bool.or_eq_true, decide_eq_true_eq, number_inj]
  rw [or_comm, eq_comm]

/-- A union has the symbols of both sets. -/
@[simp] theorem mem_union {a : σ} {s t : SymbolSet σ} : a ∈ s ∪ t ↔ a ∈ s ∨ a ∈ t := by
  simp [mem_def, Union.union, union]

/-- A singleton has its one symbol. -/
@[simp] theorem mem_singleton {a b : σ} : a ∈ ({b} : SymbolSet σ) ↔ a = b := by
  simp [Singleton.singleton]

/-- The set of a list has the symbols of the list. -/
@[simp] theorem mem_ofList {a : σ} {l : List σ} : a ∈ ofList l ↔ a ∈ l := by
  have grow (s : SymbolSet σ) :
      a ∈ l.foldl (fun s b => s.insert b) s ↔ a ∈ s ∨ a ∈ l := by
    induction l generalizing s with
    | nil => simp
    | cons b l ih => rw [List.foldl_cons, ih, mem_insert, List.mem_cons, or_comm (a := a = b), or_assoc]
  simpa [ofList] using grow ∅

/-- Sets with the same members are equal. -/
theorem ext {s t : SymbolSet σ} (h : ∀ a : σ, a ∈ s ↔ a ∈ t) : s = t := by
  obtain ⟨x⟩ := s
  obtain ⟨y⟩ := t
  congr 1
  refine Nat.eq_of_testBit_eq fun i => ?_
  have := h (Numbered.ofNumber i)
  simp only [mem_def, Numbered.number_ofNumber] at this
  exact Bool.eq_iff_iff.2 this

/-- The list of a set has the symbols of the set. -/
@[simp] theorem mem_toList {a : σ} {s : SymbolSet σ} : a ∈ s.toList ↔ a ∈ s := by
  simp only [toList, List.mem_map, List.mem_filter, List.mem_range, mem_def]
  constructor
  · rintro ⟨i, ⟨-, hi⟩, rfl⟩
    rwa [Numbered.number_ofNumber]
  · intro h
    refine ⟨Numbered.number a, ⟨?_, h⟩, Numbered.ofNumber_number a⟩
    have bound := Nat.ge_two_pow_of_testBit h
    have nonzero : s.digits ≠ 0 := fun h0 => by simp [h0] at h
    exact Nat.lt_succ_of_le ((Nat.le_log2 nonzero).2 bound)

/-- No member is listed twice. -/
theorem nodup_toList (s : SymbolSet σ) : s.toList.Nodup := by
  refine List.Pairwise.map Numbered.ofNumber (fun i j hij heq => hij ?_)
    (List.Pairwise.filter _ List.nodup_range)
  have hnumber := congrArg (Numbered.number (σ := σ)) heq
  rwa [Numbered.number_ofNumber, Numbered.number_ofNumber] at hnumber

end SymbolSet

end ShiftReduce
