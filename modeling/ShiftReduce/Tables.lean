import ShiftReduce.Augment
import ShiftReduce.ParseTable

/-! # All tables of a rule list -/

namespace ShiftReduce

/-- A grammar with everything that is computed from it. -/
structure Tables where
  /-- the augmented grammar -/
  grammar : Grammar
  /-- its `FIRST` sets -/
  first : FirstSets
  /-- its `FOLLOW` sets -/
  follow : FollowSets
  /-- its automaton -/
  automaton : Automaton
  /-- its action and goto tables -/
  table : ParseTable

namespace Tables

/-- The tables of a grammar. -/
def ofGrammar (g : Grammar) : Tables :=
  let first := FirstSets.ofGrammar g
  let follow := FollowSets.ofGrammar g first
  let automaton := Automaton.ofGrammar g
  ⟨g, first, follow, automaton, ParseTable.ofAutomaton g follow automaton⟩

/-- The tables of a rule list. -/
def ofRules (defs : List RuleDef) : Except GrammarError Tables :=
  (Grammar.augment defs).map ofGrammar

/-- Everything as one report. -/
def text (t : Tables) : String :=
  paragraphs [
    t.grammar.text,
    lines ["## first sets:"] ++ t.first.text t.grammar,
    lines ["## follow sets:"] ++ t.follow.text t.grammar,
    t.automaton.text t.grammar,
    t.table.text t.grammar]

end Tables

end ShiftReduce
