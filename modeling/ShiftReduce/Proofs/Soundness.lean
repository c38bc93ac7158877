import ShiftReduce.Derivation
import ShiftReduce.Proofs.Evaluation

/-! # What the parser accepts is derived

The symbols on the path of the stack, followed by the input that is left, are a form from which the
rules reduced so far derive the word, the latest rule first (`Tables.exists_path_of_reaches`). This holds
of all tables, also where actions were lost to conflicts: each action that is left is one that its state
offers. Acceptance finds just the start symbol on the stack and no input. -/

namespace ShiftReduce

/-! ## Rightmost derivations -/

namespace RightmostBy

variable {g : Grammar}

/-- A rule with a number is a production. -/
theorem producesBy_le (wf : g.WellFormed) {rule : Nat} {n : Nonterminal} {body : List Symbol}
    (h : g.ProducesBy rule n body) : g.Produces n body := by
  obtain ⟨hzero, r, hr, hleft, hbody⟩ := h
  exact ⟨r, wf.mem_inputRules hzero hr, hleft, hbody⟩

/-- A rightmost derivation is a derivation. -/
theorem derives (wf : g.WellFormed) {first last : List Symbol} {rules : List Nat}
    (h : RightmostBy g first rules last) : Derives g.Produces first last := by
  induction h with
  | refl form => exact .refl form
  | head step _ ih =>
    -- the first rule is used, and the others go on
    obtain ⟨before, after, hrule⟩ := step
    refine Derives.trans ?_ ih
    exact (Derives.refl _).tail (.of_rule before _ (producesBy_le wf hrule))

end RightmostBy

namespace Tables

variable {g : Grammar}

/-! ## What actions say about the stack -/

/-- No state has an edge on the end of the input. -/
theorem endOfInput_not_mem_edges (wf : g.WellFormed) {i j : Nat} {s : State}
    (hs : (Automaton.ofGrammar g).state? i = some s) :
    (.terminal .endOfInput, j) ∉ s.edges := by
  intro hedge
  have hexpected : Symbol.terminal .endOfInput ∈ s.items.expected g := by
    rw [← Automaton.edges_keys wf hs]
    exact List.mem_map_of_mem (f := (·.1)) hedge
  obtain ⟨item, -, hnext⟩ := ItemSet.mem_expected.mp hexpected
  obtain ⟨r, hr, hget⟩ := Item.next?_eq_some.mp hnext
  exact (wf.hasSymbol_of_mem (Grammar.mem_rules_of_rule? hr) (List.mem_of_getElem? hget)).1 rfl

/-- A shift reads a terminal of the input along an edge. -/
theorem exists_edge_of_shifted (wf : g.WellFormed) {c d : Configuration}
    (h : (ofGrammar g).step c = .shifted d) :
    ∃ s x next, (Automaton.ofGrammar g).state? c.state = some s ∧ (.terminal x, next) ∈ s.edges ∧
      c.input = x :: d.input ∧ d.states = next :: c.states := by
  obtain ⟨next, haction, rfl⟩ := step_eq_shifted.mp h
  obtain ⟨s, hs, hmem⟩ := ParseTable.mem_candidates_of_action? haction
  have hedge := mem_candidates_shift.mp hmem
  refine ⟨s, c.lookahead, next, hs, hedge, ?_, rfl⟩
  obtain ⟨states, input⟩ := c
  cases input with
  | nil => exact absurd hedge (endOfInput_not_mem_edges wf hs)
  | cons x input => rfl

/-- Where the action is a reduction, the body of the rule has been read from a state that has the rule's
initial item. -/
theorem back_of_reduce (wf : g.WellFormed) {c : Configuration} {rule : Nat} {symbols : List Symbol}
    (hpath : (Automaton.ofGrammar g).Path c.states symbols)
    (h : (ofGrammar g).table.action? c.state c.lookahead = some (.reduce rule)) :
    ∃ r top below, rule ≠ 0 ∧ g.rule? rule = some r ∧ c.states.drop r.right.size = top :: below ∧
      (Automaton.ofGrammar g).Path (top :: below) (symbols.drop r.right.size) ∧
      (Automaton.ofGrammar g).HasItem top ⟨rule, 0⟩ ∧
      (symbols.take r.right.size).reverse = r.right.toList := by
  obtain ⟨s, hs, hmem⟩ := ParseTable.mem_candidates_of_action? h
  obtain ⟨hzero, r, hr, -, hitem⟩ := (mem_candidates_reduce wf hs).mp hmem
  obtain ⟨top, below, hdrop, htop, hinitial, htake⟩ := hpath.back wf hitem hr
  -- the complete item has its whole body before the marker
  have hbody : r.right.toList.take r.right.size = r.right.toList := List.take_length
  exact ⟨r, top, below, hzero, hr, hdrop, htop, hinitial, htake.trans hbody⟩

/-- A reduction finds the body of its rule on the stack, and its head replaces that. -/
theorem exists_body_of_reduced (wf : g.WellFormed) {c d : Configuration} {rule : Nat}
    {symbols : List Symbol} (hpath : (Automaton.ofGrammar g).Path c.states symbols)
    (h : (ofGrammar g).step c = .reduced rule d) :
    ∃ r rest, rule ≠ 0 ∧ g.rule? rule = some r ∧ symbols.reverse = rest.reverse ++ r.right.toList ∧
      (Automaton.ofGrammar g).Path d.states (.nonterminal r.left :: rest) ∧ d.input = c.input := by
  obtain ⟨haction, r, top, below, next, hr, hdrop, hgoto, rfl⟩ := step_eq_reduced.mp h
  obtain ⟨r', top', below', hzero, hr', hdrop', htop, -, hbody⟩ := back_of_reduce wf hpath haction
  obtain rfl : r = r' := Option.some.inj (hr.symm.trans hr')
  obtain ⟨rfl, rfl⟩ := List.cons.inj (hdrop.symm.trans hdrop')
  obtain ⟨s', hs', hedge⟩ := (ParseTable.goto?_eq_some wf).mp hgoto
  refine ⟨r, symbols.drop r.right.size, hzero, hr, ?_, htop.edge hs' hedge, rfl⟩
  rw [← hbody, ← List.reverse_append, List.take_append_drop]

/-- Acceptance finds the start symbol alone on the stack, and the end of the input ahead. -/
theorem symbols_of_accepted (wf : g.WellFormed) {c : Configuration} {symbols : List Symbol}
    (hpath : (Automaton.ofGrammar g).Path c.states symbols)
    (h : (ofGrammar g).step c = .accepted) :
    symbols = [.nonterminal g.start] ∧ c.lookahead = .endOfInput := by
  obtain ⟨s, hs, hmem⟩ := ParseTable.mem_candidates_of_action? (step_eq_accepted.mp h)
  obtain ⟨hend, hitem⟩ := (mem_candidates_accept wf hs).mp hmem
  obtain ⟨top, below, -, htop, hinitial, htake⟩ := hpath.back wf hitem wf.rule?_zero
  obtain ⟨-, hnil⟩ := htop.eq_start_of_hasItem wf hinitial
  refine ⟨?_, hend⟩
  -- one symbol is before the marker, and nothing before that
  have hsymbols : symbols = (symbols.take 1).reverse.reverse ++ symbols.drop 1 := by
    rw [List.reverse_reverse, List.take_append_drop]
  rw [hsymbols, htake, hnil]
  rfl

/-! ## Runs -/

/-- **The stack and the input that is left derive the word** by the rules reduced so far. -/
theorem exists_path_of_reaches (wf : g.WellFormed) {word : List Terminal} {n : Nat}
    {rules : List Nat} {c : Configuration}
    (h : (ofGrammar g).Reaches (.initial word) n rules c) :
    ∃ symbols, (Automaton.ofGrammar g).Path c.states symbols ∧
      RightmostBy g (symbols.reverse ++ c.input.map .terminal) rules (word.map .terminal) := by
  induction h with
  | refl => exact ⟨[], .start, .refl _⟩
  -- a terminal moves from the input to the stack
  | shift _ hstep ih =>
    obtain ⟨symbols, hpath, hderives⟩ := ih
    obtain ⟨s, x, next, hs, hedge, hinput, hstates⟩ := exists_edge_of_shifted wf hstep
    refine ⟨.terminal x :: symbols, ?_, ?_⟩
    · rw [hstates]
      exact hpath.push hs hedge
    · rw [hinput] at hderives
      simpa using hderives
  -- the head on the stack derives the body that it replaces
  | @reduce d e n rule rules _ hstep ih =>
    obtain ⟨symbols, hpath, hderives⟩ := ih
    obtain ⟨r, rest, hzero, hr, hsymbols, hpath', hinput⟩ := exists_body_of_reduced wf hpath hstep
    refine ⟨.nonterminal r.left :: rest, hpath', .head ?_ hderives⟩
    rw [hsymbols, hinput, List.reverse_cons, List.append_assoc]
    exact .of_rule rest.reverse d.input ⟨hzero, r, hr, rfl, rfl⟩

/-- **Soundness of all tables.** Whatever was lost to conflicts, the rules that an accepting run reduces
are, the latest first, a rightmost derivation of the word from the start symbol that was asked for. -/
theorem derives_of_accepts {defs : List RuleDef} {t : Tables} (h : ofRules defs = .ok t)
    {word : List Terminal} (hword : .endOfInput ∉ word) {rules : List Nat}
    (haccepts : t.Accepts word rules) :
    RightmostBy t.grammar [.nonterminal t.grammar.start] rules (word.map .terminal) ∧
      Derives t.grammar.Produces [.nonterminal t.grammar.start] (word.map .terminal) := by
  obtain ⟨g, hg, rfl⟩ := ofRules_eq_ok.mp h
  have wf := Grammar.wellFormed_of_augment hg
  obtain ⟨n, c, hrun, hc⟩ := haccepts
  obtain ⟨symbols, hpath, hderives⟩ := exists_path_of_reaches wf hrun
  obtain ⟨rfl, hend⟩ := symbols_of_accepted wf hpath hc
  -- the end of the input cannot come from the word, so nothing of the word is left
  have hnil : c.input = [] := by
    cases hinput : c.input with
    | nil => rfl
    | cons x rest =>
      have hx : x = .endOfInput := by
        rw [Configuration.lookahead, hinput] at hend
        exact hend
      have hmem : x ∈ word := hrun.suffix.subset (hinput ▸ List.mem_cons_self ..)
      exact absurd (hx ▸ hmem) hword
  rw [hnil] at hderives
  exact ⟨hderives, hderives.derives wf⟩

end Tables

/-! ## A rule list with a conflict -/

/-- Two nonterminals that both derive just one terminal, so that their reductions meet. -/
def choiceRules : List RuleDef := [⟨"S", ["A"]⟩, ⟨"S", ["B"]⟩, ⟨"A", ["x"]⟩, ⟨"B", ["x"]⟩]

/-- The rules by number. -/
theorem ofDefs_choiceRules : Grammar.ofDefs choiceRules =
    .ofNames ["$", "x"] ["", "S", "A", "B"] (by decide) (by decide)
      [⟨⟨1⟩, #[.nonterminal ⟨2⟩]⟩, ⟨⟨1⟩, #[.nonterminal ⟨3⟩]⟩, ⟨⟨2⟩, #[.terminal ⟨1⟩]⟩,
        ⟨⟨3⟩, #[.terminal ⟨1⟩]⟩] := by rfl

namespace Tables

/-- The reduction that took the place of the other one leads to acceptance. -/
theorem derives_of_accepts_choiceRules : ∃ t, ofRules choiceRules = .ok t ∧
    t.table.isConsistent = false ∧ .endOfInput ∉ [Terminal.mk 1] ∧ t.Accepts [⟨1⟩] [2, 4] ∧
    RightmostBy t.grammar [.nonterminal t.grammar.start] [2, 4] ([⟨1⟩].map .terminal) ∧
    Derives t.grammar.Produces [.nonterminal t.grammar.start] ([⟨1⟩].map .terminal) := by
  obtain ⟨t, ht, -, -, htable, hstep⟩ := exists_of_valid choiceRules (by decide)
    (by unfold RuleDef.IsValid; decide) (by decide) (by decide)
  have hconflict : (listed (.ofDefs choiceRules)).table.isConsistent = false := by
    rw [ofDefs_choiceRules]
    cbv
  have hrun : (listed (.ofDefs choiceRules)).run 5 (.initial [⟨1⟩]) [] = some [2, 4] := by
    rw [ofDefs_choiceRules]
    cbv
  have haccepts : t.Accepts [⟨1⟩] [2, 4] := accepts_of_step_eq hstep.symm (accepts_of_run hrun)
  have hword : .endOfInput ∉ [Terminal.mk 1] := by decide
  exact ⟨t, ht, htable ▸ hconflict, hword, haccepts, derives_of_accepts ht hword haccepts⟩

end Tables

end ShiftReduce
