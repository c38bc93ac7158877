import ShiftReduce.Proofs.CanonicalCollection
import ShiftReduce.Proofs.CheckedTables
import ShiftReduce.Proofs.Runs

/-! # All numbers exist

Items, transitions, cells and conflicts refer to rules, symbols and states by number. In the tables of a
rule list everything that is referred to exists (`Tables.NumbersExist`): items and edges come from rules,
candidates from items and `FOLLOW` sets, and cells and conflicts hold candidates only. So the
computation of the tables and of everything that is made of them looks up rules that exist and moves
markers within bodies (`Tables.succeeds`). -/

namespace ShiftReduce

/-- The grammar has the symbol, one of the two reserved ones included. -/
def Grammar.NumberExists (g : Grammar) : Symbol → Prop
  | .terminal t => t.number < g.terminals.size
  | .nonterminal n => n.number < g.nonterminals.size

/-- A symbol that occurs has a number of the grammar. -/
theorem Grammar.HasSymbol.numberExists {g : Grammar} {x : Symbol} (h : g.HasSymbol x) :
    g.NumberExists x := by
  cases x with
  | terminal t => exact h.2
  | nonterminal n => exact h.2

namespace Tables

/-- What an action refers to is there. -/
def ActionExists (t : Tables) : Action → Prop
  | .shift j => j < t.automaton.states.size
  | .reduce k => ∃ r, t.grammar.rule? k = some r
  | .accept => True

/-- Whatever some tables refer to by number is there. -/
structure NumbersExist (t : Tables) : Prop where
  /-- items belong to rules, with the marker inside the body or at its end -/
  items : ∀ i s, t.automaton.state? i = some s → ∀ item ∈ s.items,
    ∃ r, t.grammar.rule? item.rule = some r ∧ item.marker ≤ r.right.size ∧ r.right.size ≤ capacity
  /-- transitions lead from states to states on symbols of the grammar -/
  transitions : ∀ e ∈ t.automaton.transitions, e.source < t.automaton.states.size ∧
    e.target < t.automaton.states.size ∧ t.grammar.NumberExists e.symbol
  /-- there is a row for each state -/
  rows : t.table.rows.size = t.automaton.states.size
  /-- actions stand on terminals of the grammar -/
  actions : ∀ row ∈ t.table.rows.toList, ∀ e ∈ row.actions.entries,
    t.grammar.NumberExists (.terminal e.1) ∧ t.ActionExists e.2
  /-- gotos stand on nonterminals of the grammar and lead to states -/
  gotos : ∀ row ∈ t.table.rows.toList, ∀ e ∈ row.gotos.entries,
    t.grammar.NumberExists (.nonterminal e.1) ∧ e.2 < t.automaton.states.size
  /-- conflicts are about cells of the table -/
  conflicts : ∀ c ∈ t.table.conflicts, c.state < t.automaton.states.size ∧
    t.grammar.NumberExists (.terminal c.terminal) ∧ t.ActionExists c.previous ∧
    t.ActionExists c.current

variable {g : Grammar}

/-! ## The automaton -/

/-- A state's number is below the count of states. -/
theorem lt_size_of_state? {a : Automaton} {i : Nat} {s : State} (hs : a.state? i = some s) :
    i < a.states.size :=
  (Array.getElem?_eq_some_iff.mp hs).1

/-- Edges are on symbols of the grammar and lead to states. -/
theorem exists_of_mem_edges (wf : g.WellFormed) {i : Nat} {s : State}
    (hs : (Automaton.ofGrammar g).state? i = some s) {x : Symbol} {j : Nat} (h : (x, j) ∈ s.edges) :
    g.HasSymbol x ∧ j < (Automaton.ofGrammar g).states.size := by
  obtain ⟨s', hs', -⟩ := Automaton.exists_of_mem_edges wf hs h
  have hx : x ∈ s.items.expected g := by
    rw [← Automaton.edges_keys wf hs]
    exact List.mem_map_of_mem (f := (·.1)) h
  -- an expected symbol stands in a body
  obtain ⟨item, -, hnext⟩ := ItemSet.mem_expected.mp hx
  obtain ⟨r, hr, hget⟩ := Item.next?_eq_some.mp hnext
  exact ⟨wf.hasSymbol_of_mem (Grammar.mem_rules_of_rule? hr) (List.mem_of_getElem? hget),
    lt_size_of_state? hs'⟩

/-! ## The cells -/

/-- **What a state offers exists.** -/
theorem exists_of_mem_candidates (wf : g.WellFormed) {i : Nat} {s : State}
    (hs : (Automaton.ofGrammar g).state? i = some s) {x : Terminal} {a : Action}
    (h : (x, a) ∈ s.candidates g (ofGrammar g).follow) :
    g.NumberExists (.terminal x) ∧ (ofGrammar g).ActionExists a := by
  rcases State.mem_candidates.mp h with ⟨j, rfl, hedge⟩ | ⟨item, hitem, -, hoffer⟩
  · obtain ⟨hsymbol, hlt⟩ := exists_of_mem_edges wf hs hedge
    exact ⟨hsymbol.numberExists, hlt⟩
  · rcases mem_reductionsOf.mp hoffer with ⟨-, rfl, rfl⟩ | ⟨-, rfl, r, hr, set, hset, hx⟩
    · exact ⟨wf.endOfInput_lt, trivial⟩
    · refine ⟨?_, r, hr⟩
      have hbounded := FollowSets.isBounded_ofGrammar wf (FirstSets.isBounded_ofGrammar wf)
      have hmem := hbounded.terminals _ (OrderedMap.mem_entries_of_get? hset) x hx
      exact Grammar.mem_allTerminals.mp hmem

/-- Every row of the table belongs to a state. -/
theorem exists_row {row : Row} (h : row ∈ (ofGrammar g).table.rows.toList) :
    ∃ i s, (Automaton.ofGrammar g).state? i = some s ∧
      row = (ParseTable.rowOf g (ofGrammar g).follow i s).1 := by
  obtain ⟨i, hi⟩ := List.mem_iff_getElem?.mp h
  have hrow : (ofGrammar g).table.rows[i]? = ((Automaton.ofGrammar g).state? i).map fun s =>
      (ParseTable.rowOf g (ofGrammar g).follow i s).1 := ParseTable.getElem?_rows
  rw [Array.getElem?_toList, hrow, Option.map_eq_some_iff] at hi
  obtain ⟨s, hs, rfl⟩ := hi
  exact ⟨i, s, hs, rfl⟩

/-- **Whatever the tables of a grammar refer to is there.** -/
theorem numbersExist_ofGrammar (wf : g.WellFormed) (room : g.HasRoom) :
    (ofGrammar g).NumbersExist where
  items i s hs item hitem := by
    obtain ⟨r, hr, hle⟩ := Automaton.exists_rule_of_mem_items wf hs hitem
    exact ⟨r, hr, hle, room _ r hr⟩
  transitions e he := by
    obtain ⟨s, hs, hedge⟩ := Automaton.mem_transitions.mp he
    obtain ⟨hsymbol, hlt⟩ := exists_of_mem_edges wf hs hedge
    exact ⟨lt_size_of_state? hs, hlt, hsymbol.numberExists⟩
  rows := by simp [ofGrammar, ParseTable.ofAutomaton]
  actions row hrow e he := by
    obtain ⟨i, s, hs, rfl⟩ := exists_row hrow
    rcases mem_entries_writeActions he with hnone | he
    · exact absurd hnone List.not_mem_nil
    · exact exists_of_mem_candidates wf hs he
  gotos row hrow e he := by
    obtain ⟨i, s, hs, rfl⟩ := exists_row hrow
    obtain ⟨⟨x, j⟩, hedge, hx⟩ := List.mem_filterMap.mp he
    obtain ⟨n, hn, rfl⟩ := Option.map_eq_some_iff.mp hx
    obtain ⟨hsymbol, hlt⟩ := exists_of_mem_edges wf hs hedge
    rw [Symbol.nonterminal?_eq_some.mp hn] at hsymbol
    exact ⟨hsymbol.numberExists, hlt⟩
  conflicts c hc := by
    obtain ⟨s, hs, hc⟩ := ParseTable.mem_conflicts.mp hc
    obtain ⟨-, hprevious, hcurrent⟩ := mem_writeActions_snd hc
    have hprevious := hprevious.resolve_left List.not_mem_nil
    obtain ⟨hterminal, hold⟩ := exists_of_mem_candidates wf hs hprevious
    exact ⟨lt_size_of_state? hs, hterminal, hold, (exists_of_mem_candidates wf hs hcurrent).2⟩

/-! ## Rule lists -/

/-- **Nothing fails for any rule list.** With every look-up of a rule checked, and every marker that is
moved on, the list is accepted or rejected as without, and when it is accepted the sheet and the reports
come out as they are. Whatever the tables refer to by number is there. -/
theorem succeeds (defs : List RuleDef) :
    Checked.tables defs = .ok (ofRules defs) ∧
    ∀ t, ofRules defs = .ok t →
      Checked.sheet t = .ok (.ofTables t) ∧
      Checked.text t = .ok t.text ∧
      Checked.automatonText t.grammar t.automaton = .ok (t.automaton.text t.grammar) ∧
      Checked.tableText t.grammar t.table = .ok (t.table.text t.grammar) ∧
      t.NumbersExist := by
  refine ⟨Checked.tables_eq defs, fun t ht => ?_⟩
  obtain ⟨g, hg, rfl⟩ := ofRules_eq_ok.mp ht
  have wf := Grammar.wellFormed_of_augment hg
  have hnumbers := numbersExist_ofGrammar wf (Grammar.hasRoom_of_augment hg)
  have hrules : Checked.HasRules g (.ofGrammar g) := Checked.hasRules_ofGrammar wf
  have hcells : Checked.CellsHaveRules g (ofGrammar g).table := by
    intro row hrow e he k hk
    have hexists := (hnumbers.actions row hrow e he).2
    rw [hk] at hexists
    exact hexists
  exact ⟨Checked.sheet_eq hrules, Checked.text_eq hrules hcells, Checked.automatonText_eq hrules,
    Checked.tableText_eq hcells, hnumbers⟩

/-- A rule list with an ambiguity, a rule that comes twice and a nonterminal without rules. -/
theorem succeeds_ambiguity : ∃ t,
    ofRules [⟨"E", ["E", "+", "E"]⟩, ⟨"E", ["a"]⟩, ⟨"E", ["a"]⟩, ⟨"E", ["B"]⟩] = .ok t ∧
    Checked.sheet t = .ok (.ofTables t) ∧ Checked.text t = .ok t.text ∧
    Checked.automatonText t.grammar t.automaton = .ok (t.automaton.text t.grammar) ∧
    Checked.tableText t.grammar t.table = .ok (t.table.text t.grammar) ∧ t.NumbersExist := by
  obtain ⟨g, hg⟩ : ∃ g, Grammar.augment
      [⟨"E", ["E", "+", "E"]⟩, ⟨"E", ["a"]⟩, ⟨"E", ["a"]⟩, ⟨"E", ["B"]⟩] = .ok g :=
    Grammar.exists_augment (by decide) (by unfold RuleDef.IsValid; decide) (by decide) (by decide)
  have ht := ofRules_eq_ok.mpr ⟨g, hg, rfl⟩
  exact ⟨ofGrammar g, ht, (succeeds _).2 _ ht⟩

end Tables

end ShiftReduce
