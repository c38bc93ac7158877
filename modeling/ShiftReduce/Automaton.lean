import ShiftReduce.Closure

/-! # The LR(0) automaton

The states are the item sets that can be reached from the start item by goto. They are numbered breadth
first: the states are taken up by number, the symbols that a state expects in the order in which its
items name them, and an item set that is new gets the next number. -/

namespace ShiftReduce

/-- A state of the automaton. -/
structure State where
  /-- the items that are valid here -/
  items : ItemSet
  /-- for each symbol that is expected, in the order of the items, the state behind it -/
  edges : List (Symbol × Nat)

/-- A transition of the automaton. -/
structure Transition where
  /-- the state that is left -/
  source : Nat
  /-- the state that is entered -/
  target : Nat
  /-- the symbol that is read -/
  symbol : Symbol
  deriving DecidableEq

/-- The states by number. -/
structure Automaton where
  /-- the states -/
  states : Array State

/-! ## States -/

namespace State

/-- The transitions on terminals. -/
def shifts (s : State) : List (Terminal × Nat) :=
  s.edges.filterMap fun (symbol, target) => symbol.terminal?.map (·, target)

/-- The transitions on nonterminals. -/
def gotos (s : State) : List (Nonterminal × Nat) :=
  s.edges.filterMap fun (symbol, target) => symbol.nonterminal?.map (·, target)

/-- The rules that can be reduced here. -/
def reduces (g : Grammar) (s : State) : List Nat := s.items.completeRules g

end State

/-! ## Construction -/

namespace Automaton

/-- The edges of a state for some symbols. New item sets are numbered behind those found before. -/
def edges (g : Grammar) (items : ItemSet) :
    List Symbol → Numbering ItemSet → List (Symbol × Nat) × Numbering ItemSet
  | [], found => ([], found)
  | symbol :: rest, found =>
    let (target, found) := found.intern (items.goto g symbol)
    let (others, found) := edges g items rest found
    ((symbol, target) :: others, found)

/-- Takes up the item sets that are found but not among the states yet, at most as many as the bound
says. -/
def explore (g : Grammar) : Nat → Array State → Numbering ItemSet → Array State
  | 0, states, _ => states
  | bound + 1, states, found =>
    match found.value? states.size with
    | none => states
    | some items =>
      let (out, found) := edges g items (items.expected g) found
      explore g bound (states.push ⟨items, out⟩) found

/-- The item set from which everything starts. -/
def startItems (g : Grammar) : ItemSet := (ItemSet.ofList [.start]).closure g

/-- How many items there are of rules that are not superseded. -/
def itemCount (g : Grammar) : Nat :=
  (List.range g.rules.size).foldl (fun count i =>
    if g.isSuperseded i then count
    else count + ((g.rule? i).map (·.right.size + 1)).getD 0) 0

/-- The automaton of a grammar. There are no more states than sets of items. -/
def ofGrammar (g : Grammar) : Automaton :=
  ⟨explore g (Nat.pow 2 (itemCount g)) #[] (Numbering.empty.intern (startItems g)).2⟩

/-- All transitions, by source and then in the order of the edges. -/
def transitions (a : Automaton) : List Transition :=
  a.states.toList.zipIdx.flatMap fun (s, i) =>
    s.edges.map fun (symbol, target) => ⟨i, target, symbol⟩

/-- The state with a given number, if there is one. -/
def state? (a : Automaton) (i : Nat) : Option State := a.states[i]?

end Automaton

/-! ## Text -/

/-- A list under a heading, which is left out with an empty list. -/
def listUnder (heading : String) (entries : List String) : List String :=
  if entries.isEmpty then [] else heading :: entries.map ("- " ++ ·)

/-- A state as a report. -/
def State.text (g : Grammar) (s : State) : String :=
  lines <|
    "## items:" :: (s.items.items.filterMap (·.text? g)).map ("- " ++ ·) ++
    listUnder "## shifts:" (s.shifts.map fun (t, i) => g.terminalName t ++ " => " ++ stateLabel i) ++
    listUnder "## gotos:"
      (s.gotos.map fun (n, i) => g.nonterminalName n ++ " => " ++ stateLabel i) ++
    listUnder "## reduces:" ((s.reduces g).filterMap fun r => (g.rule? r).map g.ruleText)

/-- The automaton as a report. -/
def Automaton.text (g : Grammar) (a : Automaton) : String :=
  paragraphs <| a.states.toList.zipIdx.map fun (s, i) =>
    lines ["#### State " ++ stateLabel i] ++ s.text g

end ShiftReduce
