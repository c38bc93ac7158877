import ShiftReduce.Proofs.Soundness
import ShiftReduce.Proofs.ViablePrefixes

/-! # The parser does not get stuck

A reduction comes back to a state that expects the head of its rule, and a state has edges on what it
expects (`Tables.exists_goto_of_reduce`). The path of the stack derives what has been read
(`Tables.exists_path_reads`), and it begins a derived form, as items are valid for it; so what has been
read begins a derived form too. Both hold of all tables, and at each configuration that a run comes
through (`Tables.soundAt_of_reaches`). -/

namespace ShiftReduce

namespace Automaton.Path

variable {g : Grammar} {stack : List Nat} {symbols : List Symbol}

/-- At the bottom of the stack there is state `0`. -/
theorem getLast?_eq {a : Automaton} (h : a.Path stack symbols) : stack.getLast? = some 0 := by
  induction h with
  | start => rfl
  | edge _ _ _ ih =>
    rw [List.getLast?_cons_cons]
    exact ih

/-- **An item with nothing before its marker is expected**, unless it is the start item. -/
theorem exists_expected (wf : g.WellFormed) (h : (ofGrammar g).Path stack symbols) {rule : Nat}
    (hzero : rule ≠ 0) {r : Rule} (hr : g.rule? rule = some r)
    (hitem : (ofGrammar g).HasItem (stack.headD 0) ⟨rule, 0⟩) :
    ∃ item, (ofGrammar g).HasItem (stack.headD 0) item ∧
      item.next? g = some (.nonterminal r.left) := by
  have hleft {n : Nonterminal} (hrule : rule ∈ g.rulesOf n) : r.left = n := by
    obtain ⟨r', hr', hn, -⟩ := Grammar.mem_rulesOf.mp hrule
    rw [Option.some.inj (hr.symm.trans hr'), hn]
  cases h with
  | start =>
    obtain ⟨s, hs, hstart⟩ := exists_state?_zero wf
    have hmem := hitem.mem_items hs
    rw [hstart] at hmem
    rcases expected_of_mem_startItems wf hmem with heq | ⟨-, n, hrule, item, hexpects, hnext⟩
    · exact absurd (Item.ext_iff.mp heq).1 hzero
    · rw [hleft hrule]
      exact ⟨item, ⟨s, hs, hstart ▸ hexpects⟩, hnext⟩
  | edge _ hs hedge =>
    obtain ⟨s', hs', hgoto⟩ := exists_of_mem_edges wf hs hedge
    have hmem := hitem.mem_items hs'
    rw [hgoto] at hmem
    obtain ⟨n, hrule, item, hexpects, hnext⟩ := ItemSet.expected_of_mem_goto wf hmem rfl
    rw [hleft hrule]
    exact ⟨item, ⟨s', hs', hgoto ▸ hexpects⟩, hnext⟩

/-- **What a path spells begins a derived form.** -/
theorem exists_derives (wf : g.WellFormed) (h : (ofGrammar g).Path stack symbols) :
    ∃ behind, Derives g.Produces [.nonterminal g.start] (symbols.reverse ++ behind) := by
  obtain ⟨s, hs⟩ := h.exists_state? wf
  obtain ⟨item, hitem⟩ := exists_mem_items wf hs
  exact (h.isValidFor wf ⟨s, hs, hitem⟩).exists_derives wf

end Automaton.Path

namespace Tables

variable {g : Grammar}

/-! ## Reductions -/

/-- **A reduction finds the body of its rule on the stack and a state behind its head.** -/
theorem exists_goto_of_reduce (wf : g.WellFormed) {c : Configuration} {symbols : List Symbol}
    (hpath : (Automaton.ofGrammar g).Path c.states symbols) {rule : Nat}
    (h : (ofGrammar g).table.action? c.state c.lookahead = some (.reduce rule)) :
    ∃ r top below next, g.rule? rule = some r ∧
      (symbols.take r.right.size).reverse = r.right.toList ∧
      c.states.drop r.right.size = top :: below ∧ (top :: below).getLast? = some 0 ∧
      (ofGrammar g).table.goto? top r.left = some next := by
  obtain ⟨r, top, below, hzero, hr, hdrop, htop, hinitial, hbody⟩ := back_of_reduce wf hpath h
  -- the head is expected where its rule begins
  obtain ⟨item, hitem, hnext⟩ := htop.exists_expected wf hzero hr hinitial
  obtain ⟨s, next, hs, hedge, -⟩ := hitem.advance wf hnext
  have hgoto : (ofGrammar g).table.goto? top r.left = some next :=
    (ParseTable.goto?_eq_some wf).mpr ⟨s, hs, hedge⟩
  exact ⟨r, top, below, next, hr, hbody, hdrop, htop.getLast?_eq, hgoto⟩

/-- The parser goes on unless it accepts or has no action. -/
theorem step_cases (wf : g.WellFormed) {c : Configuration} {symbols : List Symbol}
    (hpath : (Automaton.ofGrammar g).Path c.states symbols) :
    (∃ d, (ofGrammar g).step c = .shifted d) ∨
      (∃ rule d, (ofGrammar g).step c = .reduced rule d) ∨
      (ofGrammar g).table.action? c.state c.lookahead = some .accept ∨
      (ofGrammar g).table.action? c.state c.lookahead = none := by
  cases haction : (ofGrammar g).table.action? c.state c.lookahead with
  | none => exact Or.inr (Or.inr (Or.inr rfl))
  | some action =>
    cases action with
    | shift next => exact Or.inl ⟨_, step_eq_shifted.mpr ⟨next, haction, rfl⟩⟩
    | reduce rule =>
      obtain ⟨r, top, below, next, hr, -, hdrop, -, hgoto⟩ := exists_goto_of_reduce wf hpath haction
      have hstep := step_eq_reduced.mpr ⟨haction, r, top, below, next, hr, hdrop, hgoto, rfl⟩
      exact Or.inr (Or.inl ⟨rule, _, hstep⟩)
    | accept => exact Or.inr (Or.inr (Or.inl rfl))

/-! ## What has been read -/

/-- **The stack derives what has been read**, whatever was lost to conflicts. -/
theorem exists_path_reads (wf : g.WellFormed) {word : List Terminal} {n : Nat} {rules : List Nat}
    {c : Configuration} (h : (ofGrammar g).Reaches (.initial word) n rules c) :
    ∃ symbols read, (Automaton.ofGrammar g).Path c.states symbols ∧ word = read ++ c.input ∧
      Derives g.Produces symbols.reverse (read.map .terminal) := by
  induction h with
  | refl => exact ⟨[], [], .start, rfl, .refl _⟩
  -- a terminal is put on the stack as it is read
  | shift _ hstep ih =>
    obtain ⟨symbols, read, hpath, hword, hderives⟩ := ih
    obtain ⟨s, x, next, hs, hedge, hinput, hstates⟩ := exists_edge_of_shifted wf hstep
    refine ⟨.terminal x :: symbols, read ++ [x], ?_, ?_, ?_⟩
    · rw [hstates]
      exact hpath.push hs hedge
    · rw [hword, hinput, List.append_assoc, List.singleton_append]
    · rw [List.reverse_cons, List.map_append]
      exact hderives.append (.refl _)
  -- the head derives the body in whose place it is put
  | reduce _ hstep ih =>
    obtain ⟨symbols, read, hpath, hword, hderives⟩ := ih
    obtain ⟨r, rest, hzero, hr, hsymbols, hpath', hinput⟩ := exists_body_of_reduced wf hpath hstep
    refine ⟨.nonterminal r.left :: rest, read, hpath', hinput ▸ hword, ?_⟩
    have hhead : Derives g.Produces [.nonterminal r.left] r.right.toList :=
      .of_production ⟨r, wf.mem_inputRules hzero hr, rfl, rfl⟩
    rw [hsymbols] at hderives
    rw [List.reverse_cons]
    exact ((Derives.refl _).append hhead).trans hderives

/-! ## Runs -/

/-- What is true of the configurations that the parser comes through with a word, whatever its tables:
the next step does not get stuck, and what has been read is the beginning of a derived form. -/
structure SoundAt (t : Tables) (word : List Terminal) (c : Configuration) : Prop where
  /-- the stack is a path of the automaton -/
  exists_path : ∃ symbols, t.automaton.Path c.states symbols
  /-- where a rule is to be reduced, its body is on the top of the stack, state `0` stays below it, and
  there is a state behind its head -/
  reduce : ∀ symbols rule, t.automaton.Path c.states symbols →
    t.table.action? c.state c.lookahead = some (.reduce rule) →
    ∃ r top below next, t.grammar.rule? rule = some r ∧
      (symbols.take r.right.size).reverse = r.right.toList ∧
      c.states.drop r.right.size = top :: below ∧ (top :: below).getLast? = some 0 ∧
      t.table.goto? top r.left = some next
  /-- the parser goes on, unless it accepts or has no action -/
  goes_on : (∃ d, t.step c = .shifted d) ∨ (∃ rule d, t.step c = .reduced rule d) ∨
    t.table.action? c.state c.lookahead = some .accept ∨
    t.table.action? c.state c.lookahead = none
  /-- the start symbol derives a form that begins with what has been read -/
  derives : ∃ read behind, word = read ++ c.input ∧
    Derives t.grammar.Produces [.nonterminal t.grammar.start] (read.map .terminal ++ behind)

/-- **The parser never gets stuck**, and it reads no further than a derived form goes. This needs no
consistency: the tables of every rule list will do. -/
theorem soundAt_of_reaches {defs : List RuleDef} {t : Tables} (h : ofRules defs = .ok t)
    {word : List Terminal} {n : Nat} {rules : List Nat} {c : Configuration}
    (hrun : t.Reaches (.initial word) n rules c) : t.SoundAt word c := by
  obtain ⟨g, hg, rfl⟩ := ofRules_eq_ok.mp h
  have wf := Grammar.wellFormed_of_augment hg
  obtain ⟨symbols, read, hpath, hword, hderives⟩ := exists_path_reads wf hrun
  constructor
  case exists_path => exact ⟨symbols, hpath⟩
  case reduce => exact fun _ _ hpath haction => exists_goto_of_reduce wf hpath haction
  case goes_on => exact step_cases wf hpath
  case derives =>
    obtain ⟨behind, hbegins⟩ := hpath.exists_derives wf
    exact ⟨read, behind, hword, hbegins.trans (hderives.append (.refl _))⟩

/-- Where two reductions meet, the one that is left can be made. -/
theorem soundAt_of_reaches_choiceRules : ∃ t c, ofRules choiceRules = .ok t ∧
    t.table.isConsistent = false ∧ t.Reaches (.initial [⟨1⟩]) 1 [] c ∧
    t.table.action? c.state c.lookahead = some (.reduce 4) ∧ t.SoundAt [⟨1⟩] c := by
  obtain ⟨t, ht, -, -, htable, hstep⟩ := exists_of_valid choiceRules (by decide)
    (by unfold RuleDef.IsValid; decide) (by decide) (by decide)
  rw [ofDefs_choiceRules] at htable hstep
  have hconflict : t.table.isConsistent = false := by
    rw [htable]
    cbv
  have hshift : t.step (.initial [⟨1⟩]) = .shifted ⟨[4, 0], []⟩ := by
    rw [hstep]
    cbv
  have haction : t.table.action? 4 .endOfInput = some (.reduce 4) := by
    rw [htable]
    cbv
  have hrun : t.Reaches (.initial [⟨1⟩]) 1 [] ⟨[4, 0], []⟩ :=
    (Reaches.refl _).shift hshift
  exact ⟨t, _, ht, hconflict, hrun, haction, soundAt_of_reaches ht hrun⟩

end Tables

end ShiftReduce
