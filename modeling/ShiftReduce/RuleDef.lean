import ShiftReduce.Symbol

/-! # Production rules as they are written

A rule list is accepted when it is not empty, every head is a nonterminal, no body holds the empty name
or a reserved one, and nothing exceeds the room that there is for numbers. Otherwise the first fault is
reported: rule by rule, the head before the body, the symbols from left to right, and the length last. -/

namespace ShiftReduce

/-- A production rule as it is written; an empty body produces the empty word. -/
structure RuleDef where
  /-- the nonterminal that the rule replaces -/
  head : String
  /-- the symbols that replace it -/
  body : List String
  deriving DecidableEq

/-- The greatest number that a terminal, a rule or a position in a body can have. -/
def capacity : Nat := 65535

/-- What there can be too many of. -/
inductive Resource where
  /-- symbols in one body -/
  | bodySymbols
  /-- different terminals -/
  | terminals
  /-- rules -/
  | rules
  deriving DecidableEq

/-- Why a rule list is not a grammar. Rules are counted from `0`. -/
inductive GrammarError where
  /-- there are no rules -/
  | noRules
  /-- the head of a rule is not a nonterminal -/
  | invalidHead (rule : Nat) (head : String)
  /-- a body holds a reserved name -/
  | reservedSymbol (rule : Nat) (symbol : String)
  /-- a body holds the empty name -/
  | emptySymbol (rule : Nat)
  /-- there is no number left -/
  | tooMany (what : Resource)
  deriving DecidableEq

/-- How a resource is called in a message. -/
def Resource.description : Resource → String
  | .bodySymbols => "symbols in a production body"
  | .terminals => "terminal symbols"
  | .rules => "production rules"

/-- The message of an error. -/
def GrammarError.message : GrammarError → String
  | .noRules => "the grammar has no production rules"
  | .invalidHead rule head =>
    s!"rule #{rule}: the head `{head}' is not a single uppercase letter"
  | .reservedSymbol rule symbol =>
    s!"rule #{rule}: the reserved symbol `{symbol}' must not appear in a production body"
  | .emptySymbol rule => s!"rule #{rule}: empty symbol in the production body"
  | .tooMany what => s!"too many {what.description}"

/-! ## Faults of single rules -/

/-- What is wrong with a symbol in the body of rule number `rule`. -/
def symbolFault? (rule : Nat) (symbol : String) : Option GrammarError :=
  if symbol = "" then some (.emptySymbol rule)
  else if symbol = endMark ∨ symbol = emptyMark then some (.reservedSymbol rule symbol)
  else none

/-- The first thing that is wrong with rule number `rule` by itself. -/
def RuleDef.fault? (rule : Nat) (d : RuleDef) : Option GrammarError :=
  if isNonterminalName d.head then
    match d.body.findSome? (symbolFault? rule) with
    | some e => some e
    | none => if d.body.length ≤ capacity then none else some (.tooMany .bodySymbols)
  else some (.invalidHead rule d.head)

/-- The first fault of a list of rules, the first of which is number `start`. -/
def firstFault? (start : Nat) : List RuleDef → Option GrammarError
  | [] => none
  | d :: rest =>
    match d.fault? start with
    | some e => some e
    | none => firstFault? (start + 1) rest

/-- A rule by itself is in order. -/
def RuleDef.IsValid (d : RuleDef) : Prop :=
  isNonterminalName d.head ∧ (∀ s ∈ d.body, s ≠ "" ∧ s ≠ endMark ∧ s ≠ emptyMark) ∧
    d.body.length ≤ capacity

/-- A symbol has no fault when it is not empty and neither of the two reserved marks. -/
theorem symbolFault?_eq_none {rule : Nat} {s : String} :
    symbolFault? rule s = none ↔ s ≠ "" ∧ s ≠ endMark ∧ s ≠ emptyMark := by
  unfold symbolFault?
  by_cases h₁ : s = "" <;> by_cases h₂ : s = endMark <;> by_cases h₃ : s = emptyMark <;> grind

/-- A rule has no fault exactly when it is in order. -/
theorem RuleDef.fault?_eq_none {rule : Nat} {d : RuleDef} : d.fault? rule = none ↔ d.IsValid := by
  unfold RuleDef.fault? RuleDef.IsValid
  split
  · next hh =>
    split
    · next e he =>
      obtain ⟨s, hs, hse⟩ := List.exists_of_findSome?_eq_some he
      simp only [reduceCtorEq, false_iff]
      rintro ⟨-, hb, -⟩
      rw [symbolFault?_eq_none.2 (hb s hs)] at hse
      cases hse
    · next hn =>
      have hb := List.findSome?_eq_none_iff.1 hn
      simp only [symbolFault?_eq_none] at hb
      split <;> simp_all
  · next hh => simp [hh]

/-- There is no first fault exactly when all rules are in order. -/
theorem firstFault?_eq_none {start : Nat} {defs : List RuleDef} :
    firstFault? start defs = none ↔ ∀ d ∈ defs, d.IsValid := by
  induction defs generalizing start with
  | nil => simp [firstFault?]
  | cons d rest ih =>
    unfold firstFault?
    split
    · next e he =>
      have : ¬ d.IsValid := fun h => by simp [RuleDef.fault?_eq_none.2 h] at he
      simp [this]
    · next hn => simp [ih, RuleDef.fault?_eq_none.1 hn]

end ShiftReduce
