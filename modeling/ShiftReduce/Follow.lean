import ShiftReduce.First

/-! # FOLLOW sets

`FOLLOW` of a nonterminal holds the terminals that can stand directly behind it in what the rules
derive, and the end of the input when it can stand last. Every rule counts, also one that cannot be
reached from the start symbol. -/

namespace ShiftReduce

/-- `FOLLOW` of each nonterminal but the fresh start symbol. -/
structure FollowSets where
  /-- the entries, by increasing number -/
  entries : OrderedMap Nonterminal TerminalSet
  deriving DecidableEq

namespace FollowSets

/-- `FOLLOW` of a nonterminal. -/
def get? (s : FollowSets) (n : Nonterminal) : Option TerminalSet := s.entries.get? n

/-- Adds what follows each nonterminal in a part of a body to its entry. The part ends the body of a
rule for `left`, so what follows `left` also follows a nonterminal behind which all can vanish. -/
def addBody (first : FirstSets) (left : Nonterminal) : FollowSets → List Symbol → FollowSets
  | s, [] => s
  | s, .terminal _ :: rest => addBody first left s rest
  | s, .nonterminal n :: rest =>
    let behind := first.ofSequence rest
    let added :=
      if behind.nullable then behind.terminals ∪ (s.get? left).getD ∅ else behind.terminals
    addBody first left ⟨s.entries.modify n (· ∪ added)⟩ rest

/-- One pass over rules. -/
def pass (first : FirstSets) (rules : List Rule) (s : FollowSets) : FollowSets :=
  rules.foldl (fun s r => addBody first r.left s r.right.toList) s

/-- The start symbol is followed by the end of the input; nothing else is known yet. -/
def initial (g : Grammar) : FollowSets :=
  ⟨(OrderedMap.ofKeys (g.allNonterminals.filter (· ≠ .freshStart)) ∅).modify g.start
    fun _ => {.endOfInput}⟩

/-- How many passes are enough: each but the last adds a terminal somewhere. -/
def passBound (g : Grammar) : Nat :=
  (initial g).entries.entries.length * g.terminals.size + 1

/-- The `FOLLOW` sets of a grammar. -/
def ofGrammar (g : Grammar) (first : FirstSets) : FollowSets :=
  saturate (pass first g.inputRules) (passBound g) (initial g)

/-! ## Text -/

/-- The line of a nonterminal in the report. -/
def line (g : Grammar) (n : Nonterminal) (s : TerminalSet) : String :=
  "FOLLOW(" ++ g.nonterminalName n ++ ") = " ++ FirstSets.braced (s.toList.map g.terminalName)

/-- The sets as a report. -/
def text (g : Grammar) (s : FollowSets) : String :=
  lines (s.entries.entries.map fun (n, t) => line g n t)

end FollowSets

end ShiftReduce
