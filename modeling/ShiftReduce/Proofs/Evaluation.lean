import Mathlib
import ShiftReduce.Proofs.NumberedGrammars
import ShiftReduce.Proofs.Runs

/-! # Evaluating tables

The tables of a rule list can be evaluated in a proof: they are those of the grammar that is made from its
numbers (`Grammar.ofDefs`), and the states are those of the collection of item sets (`Tables.listed`).
So what the parser does with a given rule list can be told (`Tables.exists_of_valid`). -/

namespace ShiftReduce

/-! ## Tables of lists -/

namespace Tables

/-- The tables of a grammar, with the states of the collection of item sets. -/
def listed (g : Grammar) : Tables :=
  let first := FirstSets.ofGrammar g
  let follow := FollowSets.ofGrammar g first
  let all := Automaton.itemSets g
  let automaton : Automaton := ⟨(all.map (Automaton.stateOf g all)).toArray⟩
  ⟨g, first, follow, automaton, ParseTable.ofAutomaton g follow automaton⟩

/-- **The tables are those with the states of the collection.** -/
theorem ofGrammar_eq_listed {g : Grammar} (wf : g.WellFormed) : ofGrammar g = listed g := by
  have hautomaton : Automaton.ofGrammar g =
      ⟨((Automaton.itemSets g).map (Automaton.stateOf g (Automaton.itemSets g))).toArray⟩ := by
    rw [← Automaton.toList_states wf]
  unfold ofGrammar listed
  rw [hautomaton]

/-- **A rule list has tables, and they are those that its numbers give.** -/
theorem exists_of_valid (defs : List RuleDef) (nonempty : defs ≠ [])
    (valid : ∀ r ∈ defs, r.IsValid) (hterminals : (terminalNames defs).length ≤ capacity + 1)
    (hrules : defs.length ≤ capacity) :
    ∃ t, ofRules defs = .ok t ∧ t.grammar.SameNumbers (.ofDefs defs) ∧
      t.automaton = (listed (.ofDefs defs)).automaton ∧ t.table = (listed (.ofDefs defs)).table ∧
      t.step = (listed (.ofDefs defs)).step := by
  obtain ⟨g, hg⟩ := Grammar.exists_augment nonempty valid hterminals hrules
  have hsame := Grammar.sameNumbers_ofDefs hg
  refine ⟨ofGrammar g, ofRules_eq_ok.mpr ⟨g, hg, rfl⟩, hsame, ?_⟩
  rw [← ofGrammar_eq_listed (hsame.wellFormed (Grammar.wellFormed_of_augment hg))]
  exact ⟨hsame.automaton, hsame.table, hsame.step⟩

end Tables

end ShiftReduce
