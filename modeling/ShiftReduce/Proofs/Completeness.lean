import ShiftReduce.Proofs.Evaluation
import ShiftReduce.Proofs.Trees

/-! # What is derived is accepted

With a consistent table the parser reads the word of any valid tree, pushes one state for it and reduces
just its rules, as long as the terminal behind the word can follow the root (`Tables.runs`). A tree over
a word of the start symbol so leads to acceptance (`Tables.accepts_of_tree`). -/

namespace ShiftReduce

/-! ## The terminal ahead -/

/-- With more productions the same replacements can be made. -/
theorem Replaces.mono {p q : Productions} (hpq : ∀ n body, p n body → q n body) {a b : List Symbol}
    (h : Replaces p a b) : Replaces q a b := by
  obtain ⟨before, after, hp⟩ := h
  exact .of_rule before after (hpq _ _ hp)

/-- With more productions the same forms are derived. -/
theorem Derives.mono {p q : Productions} (hpq : ∀ n body, p n body → q n body) {a b : List Symbol}
    (h : Derives p a b) : Derives q a b := by
  induction h with
  | refl => exact .refl _
  | tail _ hstep ih => exact ih.tail (hstep.mono hpq)

/-- What comes behind a nonterminal of a body follows it: the word of the symbols behind it, or, when
that is empty, what follows the head. -/
theorem FollowSets.has_headD {g : Grammar} (wf : g.WellFormed) {r : Rule} (hr : r ∈ g.inputRules)
    {before behind : List Symbol} {n : Nonterminal}
    (heq : r.right.toList = before ++ .nonterminal n :: behind) {word rest : List Terminal}
    (hderives : Derives g.Produces behind (word.map .terminal))
    (hrest : (Tables.ofGrammar g).follow.Has r.left (rest.headD .endOfInput)) :
    (Tables.ofGrammar g).follow.Has n ((word ++ rest).headD .endOfInput) := by
  refine ofGrammar_closed wf (FirstSets.isBounded_ofGrammar wf) hr heq (mem_following.mpr ?_)
  have hexpands := hderives.mono (q := g.Expands) fun _ _ => Or.inl
  have hle := FirstSets.ofSequence_le_of_derives wf hexpands
  -- the word behind the nonterminal is empty, or it begins with the terminal ahead
  cases word with
  | nil => exact Or.inr ⟨hle.2 rfl, hrest⟩
  | cons t word => exact Or.inl (hle.1 t (SymbolSet.mem_singleton.mpr rfl))

namespace Tables

variable {g : Grammar}

/-! ## Steps of a consistent table -/

/-- In a consistent table the parser can shift what an item expects. -/
theorem shift_of_hasItem (wf : g.WellFormed) (hc : (ofGrammar g).table.isConsistent = true)
    {i : Nat} {item : Item} (hitem : (Automaton.ofGrammar g).HasItem i item) {x : Terminal}
    (hnext : item.next? g = some (.terminal x)) (below : List Nat) (rest : List Terminal) :
    ∃ j, (ofGrammar g).step ⟨i :: below, x :: rest⟩ = .shifted ⟨j :: i :: below, rest⟩ ∧
      (Automaton.ofGrammar g).HasItem j item.advance := by
  obtain ⟨s, j, hs, hedge, hadvance⟩ := hitem.advance wf hnext
  have haction := ParseTable.action?_of_isConsistent hc hs (mem_candidates_shift.mpr hedge)
  exact ⟨j, step_eq_shifted.mpr ⟨j, haction, rfl⟩, hadvance⟩

/-- In a consistent table the parser can reduce a complete item when the terminal ahead can follow. -/
theorem reduce_of_hasItem (wf : g.WellFormed) (hc : (ofGrammar g).table.isConsistent = true)
    {rule : Nat} {r : Rule} (hzero : rule ≠ 0) (hr : g.rule? rule = some r) {i : Nat}
    {states below : List Nat} (hlength : states.length = r.right.size) {rest : List Terminal}
    (hcomplete : (Automaton.ofGrammar g).HasItem ((states ++ i :: below).headD 0)
      ⟨rule, r.right.size⟩)
    (hfollow : (ofGrammar g).follow.Has r.left (rest.headD .endOfInput))
    {item : Item} (hitem : (Automaton.ofGrammar g).HasItem i item)
    (hnext : item.next? g = some (.nonterminal r.left)) :
    ∃ j, (ofGrammar g).step ⟨states ++ i :: below, rest⟩ = .reduced rule ⟨j :: i :: below, rest⟩ ∧
      (Automaton.ofGrammar g).HasItem j item.advance := by
  obtain ⟨s, hs, hmem⟩ := hcomplete
  have haction := ParseTable.action?_of_isConsistent hc hs
    ((mem_candidates_reduce wf hs).mpr ⟨hzero, r, hr, hfollow, s, hs, hmem⟩)
  obtain ⟨s', j, hs', hedge, hadvance⟩ := hitem.advance wf hnext
  have hgoto : (ofGrammar g).table.goto? i r.left = some j :=
    (ParseTable.goto?_eq_some wf).mpr ⟨s', hs', hedge⟩
  refine ⟨j, step_eq_reduced.mpr ⟨haction, r, i, below, j, hr, ?_, hgoto, rfl⟩, hadvance⟩
  exact List.drop_left' hlength

/-- In a consistent table the parser accepts at the end of the input. -/
theorem accept_of_hasItem (wf : g.WellFormed) (hc : (ofGrammar g).table.isConsistent = true)
    {i : Nat} (hitem : (Automaton.ofGrammar g).HasItem i ⟨0, 1⟩) (below : List Nat) :
    (ofGrammar g).step ⟨i :: below, []⟩ = .accepted := by
  obtain ⟨s, hs, hmem⟩ := hitem
  refine step_eq_accepted.mpr (ParseTable.action?_of_isConsistent hc hs ?_)
  exact (mem_candidates_accept wf hs).mpr ⟨rfl, s, hs, hmem⟩

/-! ## Trees -/

/-- From each state with an item that expects its root the parser reads the word of a tree, reduces its
rules and pushes the state with the item advanced, if what comes next can follow the root. -/
def Runs (g : Grammar) (tree : ParseTree) : Prop :=
  ∀ (i : Nat) (below : List Nat) (rest : List Terminal) (item : Item),
    (Automaton.ofGrammar g).HasItem i item → item.next? g = some tree.root →
    (∀ n, tree.root = .nonterminal n →
      (ofGrammar g).follow.Has n (rest.headD .endOfInput)) →
    ∃ steps rules j,
      (ofGrammar g).Reaches ⟨i :: below, tree.word ++ rest⟩ steps rules ⟨j :: i :: below, rest⟩ ∧
      rules.map g.rule? = tree.rules.map some ∧
      (Automaton.ofGrammar g).HasItem j item.advance

/-- The parser reads the words of the trees behind a marker one after the other. -/
theorem forest_runs (wf : g.WellFormed) {rule : Nat} {r : Rule} (hr : g.rule? rule = some r)
    (hread : r ∈ g.inputRules) {trees : List ParseTree} (hruns : ∀ tree ∈ trees, Runs g tree)
    (hvalid : ∀ tree ∈ trees, tree.IsValid g) {marker : Nat}
    (hroots : trees.map ParseTree.root = r.right.toList.drop marker) (hle : marker ≤ r.right.size)
    {i : Nat} (hitem : (Automaton.ofGrammar g).HasItem i ⟨rule, marker⟩) (below : List Nat)
    {rest : List Terminal}
    (hfollow : (ofGrammar g).follow.Has r.left (rest.headD .endOfInput)) :
    ∃ steps rules states,
      (ofGrammar g).Reaches ⟨i :: below, ParseTree.forestWord trees ++ rest⟩ steps rules
        ⟨states ++ i :: below, rest⟩ ∧
      marker + states.length = r.right.size ∧
      rules.map g.rule? = (ParseTree.forestRules trees).map some ∧
      (Automaton.ofGrammar g).HasItem ((states ++ i :: below).headD 0) ⟨rule, r.right.size⟩ := by
  induction trees generalizing marker i below with
  -- the marker is at the end of the body
  | nil =>
    have hge : r.right.size ≤ marker := List.drop_eq_nil_iff.mp hroots.symm
    obtain rfl : marker = r.right.size := Nat.le_antisymm hle hge
    exact ⟨0, [], [], .refl _, rfl, rfl, hitem⟩
  | cons tree trees ih =>
    have hlt : marker < r.right.toList.length := by
      by_contra hge
      rw [List.drop_of_length_le (Nat.le_of_not_lt hge)] at hroots
      cases hroots
    rw [List.drop_eq_getElem_cons hlt] at hroots
    obtain ⟨hroot, hroots⟩ := List.cons.inj hroots
    have hnext : (⟨rule, marker⟩ : Item).next? g = some tree.root :=
      Item.next?_eq_some.mpr ⟨r, hr, (List.getElem?_eq_getElem hlt).trans (congrArg some hroot.symm)⟩
    have hvalid' : ∀ tree ∈ trees, tree.IsValid g := fun tree htree =>
      hvalid tree (List.mem_cons_of_mem _ htree)
    -- what comes behind the first tree is the word of the others, or what follows the head
    have hahead : ∀ n, tree.root = .nonterminal n →
        (ofGrammar g).follow.Has n ((ParseTree.forestWord trees ++ rest).headD .endOfInput) := by
      intro n hn
      have hderives := ParseTree.derives_forestWord fun tree htree =>
        ParseTree.derives_word (hvalid' tree htree)
      have hbody : r.right.toList =
          r.right.toList.take marker ++ .nonterminal n :: trees.map ParseTree.root := by
        rw [hroots, ← hn, hroot, ← List.drop_eq_getElem_cons hlt, List.take_append_drop]
      exact FollowSets.has_headD wf hread hbody hderives hfollow
    -- the first tree is read, and the item goes on behind its root
    obtain ⟨n, rules, j, hrun, hrules, hadvance⟩ := hruns tree (List.mem_cons_self ..) i below
      (ParseTree.forestWord trees ++ rest) ⟨rule, marker⟩ hitem hnext hahead
    obtain ⟨m, more, states, hrun', hlength, hmore, hcomplete⟩ :=
      ih (fun tree htree => hruns tree (List.mem_cons_of_mem _ htree)) hvalid' hroots hlt hadvance
        (i :: below)
    refine ⟨n + m, more ++ rules, states ++ [j], ?_, ?_, ?_, ?_⟩
    · rw [ParseTree.forestWord, List.append_assoc, List.append_assoc]
      exact hrun.trans hrun'
    · rw [List.length_append, List.length_singleton, ← hlength]
      omega
    · rw [List.map_append, hmore, hrules, ParseTree.forestRules, List.map_append]
    · rw [List.append_assoc]
      exact hcomplete

/-- **With a consistent table the parser reads every valid tree.** -/
theorem runs (wf : g.WellFormed) (hc : (ofGrammar g).table.isConsistent = true) {tree : ParseTree}
    (hvalid : tree.IsValid g) : Runs g tree := by
  induction tree using ParseTree.induct with
  -- a leaf is shifted
  | leaf x =>
    intro i below rest item hitem hnext _
    obtain ⟨j, hstep, hadvance⟩ := shift_of_hasItem wf hc hitem hnext below rest
    exact ⟨1, [], j, (Reaches.refl _).shift hstep, rfl, hadvance⟩
  | node r children ih =>
    intro i below rest item hitem hnext hahead
    obtain ⟨hread, hroots, hchildren⟩ := ParseTree.isValid_node.mp hvalid
    have hfollow := hahead r.left rfl
    -- items use the last copy of the rule
    obtain ⟨rule, hrule, hr⟩ := Grammar.exists_mem_rulesOf (List.mem_of_mem_drop hread)
    have hzero : rule ≠ 0 := by
      rintro rfl
      obtain rfl := Option.some.inj (wf.rule?_zero.symm.trans hr)
      exact (wf.hasSymbol_left _ hread).1 rfl
    -- the children are read from the initial item, and then the rule is reduced
    have hinitial := hitem.initial wf hnext hrule
    have hfront : children.map ParseTree.root = r.right.toList.drop 0 := hroots
    obtain ⟨n, rules, states, hrun, hlength, hrules, hcomplete⟩ :=
      forest_runs wf hr hread (fun tree htree => ih tree htree (hchildren tree htree)) hchildren
        hfront (Nat.zero_le _) hinitial below hfollow
    obtain ⟨j, hstep, hadvance⟩ := reduce_of_hasItem wf hc hzero hr
      (by rw [← hlength, Nat.zero_add]) hcomplete hfollow hitem hnext
    refine ⟨n + 1, rule :: rules, j, hrun.reduce hstep, ?_, hadvance⟩
    rw [List.map_cons, hr, hrules, ParseTree.rules, List.map_cons]

/-- A tree over a word of the start symbol leads to acceptance, and its rules are those reduced. -/
theorem accepts_of_tree (wf : g.WellFormed) (hc : (ofGrammar g).table.isConsistent = true)
    {tree : ParseTree} (hvalid : tree.IsValid g) (hroot : tree.root = .nonterminal g.start) :
    ∃ rules, (ofGrammar g).Accepts tree.word rules ∧
      rules.map g.rule? = tree.rules.map some := by
  have hnext : Item.start.next? g = some tree.root :=
    Item.next?_eq_some.mpr ⟨_, wf.rule?_zero, by rw [hroot]; rfl⟩
  have hahead : ∀ n, tree.root = .nonterminal n →
      (ofGrammar g).follow.Has n (([] : List Terminal).headD .endOfInput) := by
    intro n hn
    obtain rfl : g.start = n := Symbol.nonterminal.inj (hroot.symm.trans hn)
    have hstart : Derives g.Expands [.nonterminal g.start] ([] ++ [.nonterminal g.start]) := .refl _
    exact FollowSets.has_endOfInput_of_derives wf hstart
  obtain ⟨n, rules, j, hrun, hrules, hadvance⟩ :=
    runs wf hc hvalid 0 [] [] .start (.start wf) hnext hahead
  rw [List.append_nil] at hrun
  exact ⟨rules, ⟨n, _, hrun, accept_of_hasItem wf hc hadvance [0]⟩, hrules⟩

end Tables

/-! ## A rule list -/

/-- Words of one terminal, with a rule that comes twice and a nonterminal without rules. -/
def starRules : List RuleDef := [⟨"S", ["a", "S"]⟩, ⟨"S", []⟩, ⟨"S", []⟩, ⟨"S", ["B"]⟩]

/-- The rule that adds a terminal. -/
def starStep : Rule := ⟨⟨1⟩, #[.terminal ⟨1⟩, .nonterminal ⟨1⟩]⟩

/-- The rule that adds nothing. -/
def starEnd : Rule := ⟨⟨1⟩, #[]⟩

/-- The rules by number. -/
theorem ofDefs_starRules : Grammar.ofDefs starRules =
    .ofNames ["$", "a"] ["", "S", "B"] (by decide) (by decide)
      [starStep, starEnd, starEnd, ⟨⟨1⟩, #[.nonterminal ⟨2⟩]⟩] := by rfl

/-- A tree over the word of one terminal. -/
def starTree : ParseTree := .node starStep [.leaf ⟨1⟩, .node starEnd []]

/-- The tree is one of the star grammar. -/
theorem isValid_starTree {g : Grammar} (h : g.SameNumbers (.ofDefs starRules)) : starTree.IsValid g := by
  have hrules : g.inputRules = [starStep, starEnd, starEnd, ⟨⟨1⟩, #[.nonterminal ⟨2⟩]⟩] :=
    h.inputRules
  unfold starTree
  simp [ParseTree.IsValid, ParseTree.ForestIsValid, ParseTree.root, hrules, starStep, starEnd]

/-- The tables of the rule list are consistent. -/
theorem exists_starTables : ∃ t, Tables.ofRules starRules = .ok t ∧
    t.grammar.SameNumbers (.ofDefs starRules) ∧ t.table.isConsistent = true := by
  obtain ⟨t, ht, hsame, -, htable, -⟩ := Tables.exists_of_valid starRules (by decide)
    (by unfold RuleDef.IsValid; decide) (by decide) (by decide)
  have hconsistent : (Tables.listed (.ofDefs starRules)).table.isConsistent = true := by
    rw [ofDefs_starRules]
    cbv
  exact ⟨t, ht, hsame, htable ▸ hconsistent⟩

namespace Tables

/-- **Completeness of consistent tables.** Every word that the rules derive from the start symbol is
accepted, also when the grammar has nonterminals without rules, useless rules or repeated ones. -/
theorem accepts_of_derives {defs : List RuleDef} {t : Tables} (h : ofRules defs = .ok t)
    (hc : t.table.isConsistent = true) {word : List Terminal}
    (hderives : Derives t.grammar.Produces [.nonterminal t.grammar.start] (word.map .terminal)) :
    ∃ rules, t.Accepts word rules := by
  obtain ⟨g, hg, rfl⟩ := ofRules_eq_ok.mp h
  obtain ⟨tree, hvalid, hroot, rfl⟩ := ParseTree.exists_tree hderives
  obtain ⟨rules, haccepts, -⟩ :=
    accepts_of_tree (Grammar.wellFormed_of_augment hg) hc hvalid hroot
  exact ⟨rules, haccepts⟩

/-- The word of one terminal is derived and accepted. -/
theorem accepts_of_derives_starRules : ∃ t, ofRules starRules = .ok t ∧
    t.table.isConsistent = true ∧
    Derives t.grammar.Produces [.nonterminal t.grammar.start] ([⟨1⟩].map .terminal) ∧
    ∃ rules, t.Accepts [⟨1⟩] rules := by
  obtain ⟨t, ht, hsame, hc⟩ := exists_starTables
  have hderives : Derives t.grammar.Produces [.nonterminal t.grammar.start]
      ([⟨1⟩].map .terminal) := by
    rw [hsame.start]
    exact ParseTree.derives_word (isValid_starTree hsame)
  exact ⟨t, ht, hc, hderives, accepts_of_derives ht hc hderives⟩

end Tables

end ShiftReduce
