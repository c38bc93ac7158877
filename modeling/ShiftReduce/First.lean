import ShiftReduce.Grammar
import ShiftReduce.OrderedMap
import ShiftReduce.Saturate
import ShiftReduce.SymbolSet

/-! # FIRST sets

`FIRST` of a sequence of symbols holds the terminals with which the words it derives begin, and says
whether it derives the empty word. A nonterminal without rules has no entry and is passed over, as if it
derived just the empty word. The sets are found by passes over the rules until nothing changes. -/

namespace ShiftReduce

/-- What the words begin with that a sequence of symbols derives. -/
structure First where
  /-- the terminals with which they begin -/
  terminals : TerminalSet
  /-- whether the empty word is one of them -/
  nullable : Bool
  deriving DecidableEq

namespace First

/-- Nothing is known to be derived. -/
def none : First := ⟨∅, false⟩

/-- The words of either. -/
def join (a b : First) : First := ⟨a.terminals ∪ b.terminals, a.nullable || b.nullable⟩

end First

/-- `FIRST` of each nonterminal that has rules. -/
structure FirstSets where
  /-- the entries, in the order in which the nonterminals first occur as heads -/
  entries : OrderedMap Nonterminal First
  deriving DecidableEq

namespace FirstSets

/-- `FIRST` of a nonterminal, if it has rules. -/
def get? (s : FirstSets) (n : Nonterminal) : Option First := s.entries.get? n

/-- Whether the nonterminal has rules and derives the empty word. -/
def isNullable (s : FirstSets) (n : Nonterminal) : Bool := (s.get? n).any (·.nullable)

/-- `FIRST` of a sequence of symbols. -/
def ofSequence (s : FirstSets) : List Symbol → First
  | [] => ⟨∅, true⟩
  | .terminal t :: _ => ⟨{t}, false⟩
  | .nonterminal n :: rest =>
    match s.get? n with
    | some f =>
      if f.nullable then
        let behind := s.ofSequence rest
        ⟨f.terminals ∪ behind.terminals, behind.nullable⟩
      else f
    | none => s.ofSequence rest

/-- Adds what the body of a rule begins with to the entry of its head. -/
def addRule (s : FirstSets) (r : Rule) : FirstSets :=
  ⟨s.entries.modify r.left (·.join (s.ofSequence r.right.toList))⟩

/-- One pass over rules. -/
def pass (rules : List Rule) (s : FirstSets) : FirstSets := rules.foldl addRule s

/-- Every nonterminal with a rule has an entry, in which nothing is known yet. -/
def initial (rules : List Rule) : FirstSets :=
  ⟨.ofKeys (rules.map (·.left)).eraseDups .none⟩

/-- How many passes are enough: each but the last adds a terminal or the empty word somewhere. -/
def passBound (g : Grammar) : Nat :=
  (initial g.inputRules).entries.entries.length * g.terminals.size + 1

/-- The `FIRST` sets of a grammar. -/
def ofGrammar (g : Grammar) : FirstSets :=
  saturate (pass g.inputRules) (passBound g) (initial g.inputRules)

/-! ## Text -/

/-- Names in curly brackets. -/
def braced (names : List String) : String :=
  "\x7b" ++ ",".intercalate (names.map (" " ++ ·)) ++ " \x7d"

/-- The line of a nonterminal in the report; the empty word comes last. -/
def line (g : Grammar) (n : Nonterminal) (f : First) : String :=
  let names := f.terminals.toList.map g.terminalName ++ (if f.nullable then [emptyMark] else [])
  "FIRST(" ++ g.nonterminalName n ++ ") = " ++ braced names

/-- The sets as a report. -/
def text (g : Grammar) (s : FirstSets) : String :=
  lines (s.entries.entries.map fun (n, f) => line g n f)

end FirstSets

end ShiftReduce
