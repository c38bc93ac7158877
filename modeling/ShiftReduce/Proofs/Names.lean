import ShiftReduce.Parser
import ShiftReduce.Proofs.Augmentation

/-! # Names make no difference

Everything that is computed from a grammar, its texts apart, is about numbers: grammars with the same
numbered rules and as many symbols have the same `FIRST` and `FOLLOW` sets, the same automaton, the same
tables (`Grammar.SameNumbers.tables`) and the same parser (`Grammar.SameNumbers.step`). -/

namespace ShiftReduce

/-- Two grammars are the same but for the names of their symbols. -/
structure Grammar.SameNumbers (g g' : Grammar) : Prop where
  /-- they have the same rules -/
  rules : g.rules = g'.rules
  /-- they have the same start symbol -/
  start : g.start = g'.start
  /-- they have as many terminals -/
  terminals : g.terminals.size = g'.terminals.size
  /-- they have as many nonterminals -/
  nonterminals : g.nonterminals.size = g'.nonterminals.size

/-- All tables are the same but for the names of the symbols. -/
structure Tables.SameNumbers (t t' : Tables) : Prop where
  /-- they have the same rules -/
  rules : t.grammar.rules = t'.grammar.rules
  /-- they have the same start symbol -/
  start : t.grammar.start = t'.grammar.start
  /-- the same rules are superseded -/
  superseded : t.grammar.superseded = t'.grammar.superseded
  /-- they have the same `FIRST` sets -/
  first : t.first = t'.first
  /-- they have the same `FOLLOW` sets -/
  follow : t.follow = t'.follow
  /-- they have the same states and transitions -/
  automaton : t.automaton = t'.automaton
  /-- they have the same actions, gotos and conflicts -/
  table : t.table = t'.table

namespace Grammar.SameNumbers

variable {g g' : Grammar}

/-! ## Rules -/

/-- The rules have the same numbers. -/
theorem rule? (h : g.SameNumbers g') : g.rule? = g'.rule? := by
  funext i
  unfold Grammar.rule?
  rw [h.rules]

/-- The same rules have a later copy. -/
theorem superseded (h : g.SameNumbers g') : g.superseded = g'.superseded := by
  rw [g.superseded_eq, g'.superseded_eq, h.rules]

/-- The same numbers belong to rules with a later copy. -/
theorem isSuperseded (h : g.SameNumbers g') : g.isSuperseded = g'.isSuperseded := by
  funext i
  unfold Grammar.isSuperseded
  rw [h.superseded]

/-- The input rules are the same. -/
theorem inputRules (h : g.SameNumbers g') : g.inputRules = g'.inputRules := by
  unfold Grammar.inputRules
  rw [h.rules]

/-- The nonterminals are the same. -/
theorem allNonterminals (h : g.SameNumbers g') : g.allNonterminals = g'.allNonterminals := by
  unfold Grammar.allNonterminals
  rw [h.nonterminals]

/-- The nonterminals without a rule are the same. -/
theorem unresolved (h : g.SameNumbers g') : g.unresolved = g'.unresolved := by
  unfold Grammar.unresolved Grammar.isDefined
  rw [h.allNonterminals, h.rules]

/-- The symbols that occur are the same. -/
theorem hasSymbol (h : g.SameNumbers g') : g.HasSymbol = g'.HasSymbol := by
  funext x
  unfold Grammar.HasSymbol
  rw [h.terminals, h.nonterminals]

/-- A grammar stays well-formed under other names. -/
theorem wellFormed (h : g.SameNumbers g') (wf : g.WellFormed) : g'.WellFormed where
  startRule := by
    rw [← h.rules, ← h.start, ← h.inputRules]
    exact wf.startRule
  endOfInput_lt := h.terminals ▸ wf.endOfInput_lt
  hasSymbol_start := by
    rw [← h.hasSymbol, ← h.start]
    exact wf.hasSymbol_start
  hasSymbol_left := by
    rw [← h.hasSymbol, ← h.inputRules]
    exact wf.hasSymbol_left
  hasSymbol_right := by
    rw [← h.hasSymbol, ← h.inputRules]
    exact wf.hasSymbol_right

/-! ## Sets -/

/-- The `FIRST` sets are the same. -/
theorem firstSets (h : g.SameNumbers g') : FirstSets.ofGrammar g = FirstSets.ofGrammar g' := by
  unfold FirstSets.ofGrammar FirstSets.passBound
  rw [h.inputRules, h.terminals]

/-- The `FOLLOW` sets are the same. -/
theorem followSets (h : g.SameNumbers g') (first : FirstSets) :
    FollowSets.ofGrammar g first = FollowSets.ofGrammar g' first := by
  have hinitial : FollowSets.initial g = FollowSets.initial g' := by
    unfold FollowSets.initial
    rw [h.allNonterminals, h.start]
  unfold FollowSets.ofGrammar FollowSets.passBound
  rw [h.inputRules, h.terminals, hinitial]

/-! ## Item sets -/

/-- The left corners are the same. -/
theorem leftCorners (h : g.SameNumbers g') : g.leftCorners = g'.leftCorners := by
  have hstep : g.addLeftCorners = g'.addLeftCorners := by
    funext s
    unfold Grammar.addLeftCorners
    rw [h.rules]
  funext s
  unfold Grammar.leftCorners
  rw [hstep, h.nonterminals]

/-- The items added for some nonterminals are the same. -/
theorem initialItems (h : g.SameNumbers g') : g.initialItems = g'.initialItems := by
  have hrule : g.isRuleOf = g'.isRuleOf := by
    funext s i
    unfold Grammar.isRuleOf
    rw [h.rule?, h.isSuperseded]
  funext s
  unfold Grammar.initialItems
  simp only [h.rules, hrule]

/-- An item expects the same symbol. -/
theorem next? (h : g.SameNumbers g') : Item.next? g = Item.next? g' := by
  funext i
  unfold Item.next?
  rw [h.rule?]

/-- The same items are complete. -/
theorem isComplete (h : g.SameNumbers g') : Item.isComplete g = Item.isComplete g' := by
  funext i
  unfold Item.isComplete
  rw [h.rule?]

/-- The closures are the same. -/
theorem closure (h : g.SameNumbers g') : ItemSet.closure g = ItemSet.closure g' := by
  funext s
  unfold ItemSet.closure ItemSet.expectedNonterminals
  rw [h.initialItems, h.leftCorners, h.next?]

/-- The expected symbols are the same. -/
theorem expected (h : g.SameNumbers g') : ItemSet.expected g = ItemSet.expected g' := by
  funext s
  unfold ItemSet.expected
  rw [h.next?]

/-- The items behind a symbol are the same. -/
theorem goto (h : g.SameNumbers g') : ItemSet.goto g = ItemSet.goto g' := by
  funext s x
  unfold ItemSet.goto
  rw [h.closure, h.next?]

/-! ## The automaton -/

/-- The edges out of an item set are the same. -/
theorem edges (h : g.SameNumbers g') : Automaton.edges g = Automaton.edges g' := by
  funext items symbols found
  -- the edges are made symbol by symbol
  induction symbols generalizing found with
  | nil => rfl
  | cons x symbols ih =>
    unfold Automaton.edges
    rw [h.goto]
    simp only [ih]

/-- Taking up item sets gives the same states. -/
theorem explore (h : g.SameNumbers g') : Automaton.explore g = Automaton.explore g' := by
  funext bound states found
  -- the states are made one by one
  induction bound generalizing states found with
  | zero => rfl
  | succ bound ih =>
    unfold Automaton.explore
    rw [h.edges, h.expected]
    simp only [ih]

/-- There are as many items. -/
theorem itemCount (h : g.SameNumbers g') : Automaton.itemCount g = Automaton.itemCount g' := by
  unfold Automaton.itemCount
  rw [h.rules, h.isSuperseded, h.rule?]

/-- **The automaton is the same.** -/
theorem automaton (h : g.SameNumbers g') : Automaton.ofGrammar g = Automaton.ofGrammar g' := by
  unfold Automaton.ofGrammar Automaton.startItems
  rw [h.explore, h.itemCount, h.closure]

/-! ## The tables -/

/-- The candidates for the cells are the same. -/
theorem candidates (h : g.SameNumbers g') : State.candidates g = State.candidates g' := by
  have hreductions : reductionsOf g = reductionsOf g' := by
    funext follow rule
    unfold reductionsOf
    rw [h.rule?]
  funext follow s
  unfold State.candidates State.reduces ItemSet.completeRules
  rw [hreductions, h.isComplete]

/-- The table does not depend on names. -/
theorem table (h : g.SameNumbers g') :
    (Tables.ofGrammar g).table = (Tables.ofGrammar g').table := by
  have hrow : ParseTable.rowOf g = ParseTable.rowOf g' := by
    funext follow i s
    unfold ParseTable.rowOf
    rw [h.candidates]
  unfold Tables.ofGrammar ParseTable.ofAutomaton
  simp only [hrow, h.automaton, h.firstSets, h.followSets]

/-- **The tables do not depend on names.** -/
theorem tables (h : g.SameNumbers g') : (Tables.ofGrammar g).SameNumbers (Tables.ofGrammar g') where
  rules := h.rules
  start := h.start
  superseded := h.superseded
  first := h.firstSets
  follow := by
    show FollowSets.ofGrammar g (FirstSets.ofGrammar g) =
      FollowSets.ofGrammar g' (FirstSets.ofGrammar g')
    rw [h.firstSets, h.followSets]
  automaton := h.automaton
  table := h.table

/-- **The parser does not depend on names.** -/
theorem step (h : g.SameNumbers g') :
    (Tables.ofGrammar g).step = (Tables.ofGrammar g').step := by
  have hrule : (Tables.ofGrammar g).grammar.rule? = (Tables.ofGrammar g').grammar.rule? := h.rule?
  funext c
  unfold Tables.step Tables.reduce
  rw [h.table, hrule]

end Grammar.SameNumbers

end ShiftReduce
