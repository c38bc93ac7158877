import ShiftReduce.Proofs.Completeness
import ShiftReduce.Proofs.IsomorphicAutomata
import ShiftReduce.Proofs.NumbersByNames

/-! # The order of rules makes no difference

Two lists of the same rules, in any order and each as often as may be, give the same grammar under other
numbers when they begin with the same head (`exists_isIso`). By names they give the same `FIRST` and
`FOLLOW` sets and the same states, as many conflicts, and without conflicts the same actions
(`Tables.sameContent_of_mem_iff`). -/

namespace ShiftReduce

/-! ## Names instead of numbers -/

/-- An action with the rule of a reduction as it is written. -/
inductive NamedAction where
  /-- read the terminal and enter a state -/
  | shift (state : Nat)
  /-- replace the body of a rule by its head -/
  | reduce (rule : Option RuleDef)
  /-- accept the input -/
  | accept
  deriving DecidableEq

/-- An action with other numbers for states. -/
def NamedAction.relabel (σ : Nat → Nat) : NamedAction → NamedAction
  | .shift j => .shift (σ j)
  | .reduce r => .reduce r
  | .accept => .accept

namespace Grammar

/-- A rule as it is written. -/
def written (g : Grammar) (r : Rule) : RuleDef :=
  ⟨g.nonterminalName r.left, r.right.toList.map g.symbolName⟩

/-- The names of the terminals in a set. -/
def namesIn (g : Grammar) (s : TerminalSet) : Finset String :=
  (s.toList.map g.terminalName).toFinset

/-- An item by its rule as it is written and the place of the marker. -/
def namedItem (g : Grammar) (i : Item) : Option (RuleDef × Nat) :=
  (g.rule? i.rule).map fun r => (g.written r, i.marker)

/-- An action by the rule of a reduction as it is written. -/
def namedAction (g : Grammar) : Action → NamedAction
  | .shift j => .shift j
  | .reduce k => .reduce ((g.rule? k).map g.written)
  | .accept => .accept

end Grammar

namespace Tables

/-- `FIRST` of the nonterminal with a name, and whether it derives the empty word. -/
def namedFirst (t : Tables) (name : String) : Option (Finset String × Bool) :=
  (t.grammar.nonterminals.number? name).bind fun n =>
    (t.first.get? ⟨n⟩).map fun f => (t.grammar.namesIn f.terminals, f.nullable)

/-- `FOLLOW` of the nonterminal with a name. -/
def namedFollow (t : Tables) (name : String) : Option (Finset String) :=
  (t.grammar.nonterminals.number? name).bind fun n => (t.follow.get? ⟨n⟩).map t.grammar.namesIn

/-- `FIRST` by name is the entry of the number that the name has. -/
theorem namedFirst_ofGrammar (g : Grammar) (name : String) :
    (ofGrammar g).namedFirst name = (g.nonterminals.number? name).bind fun n =>
      ((FirstSets.ofGrammar g).get? ⟨n⟩).map fun f => (g.namesIn f.terminals, f.nullable) := rfl

/-- `FOLLOW` by name is the entry of the number that the name has. -/
theorem namedFollow_ofGrammar (g : Grammar) (name : String) :
    (ofGrammar g).namedFollow name = (g.nonterminals.number? name).bind fun n =>
      ((FollowSets.ofGrammar g (FirstSets.ofGrammar g)).get? ⟨n⟩).map g.namesIn := rfl

/-- The items of a state. -/
def namedItems (t : Tables) (s : State) : List (Option (RuleDef × Nat)) :=
  s.items.items.map t.grammar.namedItem

/-- The transitions, each with its source, its target and the name of its symbol. -/
def namedTransitions (t : Tables) : List (Nat × Nat × String) :=
  t.automaton.transitions.map fun e => (e.source, e.target, t.grammar.symbolName e.symbol)

/-- The action in a state on the terminal with a name. -/
def namedAction? (t : Tables) (state : Nat) (name : String) : Option NamedAction :=
  (t.grammar.terminals.number? name).bind fun n =>
    (t.table.action? state ⟨n⟩).map t.grammar.namedAction

/-- An action by name is the cell in the column that the name has. -/
theorem namedAction?_ofGrammar (g : Grammar) (state : Nat) (name : String) :
    (ofGrammar g).namedAction? state name = (g.terminals.number? name).bind fun n =>
      ((ofGrammar g).table.action? state ⟨n⟩).map g.namedAction := rfl

/-- The states of one automaton are those of another one under other numbers. -/
structure SameStates (σ : Nat → Nat) (t t' : Tables) : Prop where
  /-- the numbers of the states are in one to one correspondence -/
  bijOn : Set.BijOn σ (Set.Iio t.automaton.states.size) (Set.Iio t'.automaton.states.size)
  /-- the state from which everything starts has the same number -/
  zero : σ 0 = 0
  /-- a state has the same items, in some order -/
  items : ∀ i s, t.automaton.state? i = some s → ∃ s', t'.automaton.state? (σ i) = some s' ∧
    (t'.namedItems s').Perm (t.namedItems s)
  /-- the transitions are the same, in some order -/
  transitions : t'.namedTransitions.Perm
    (t.namedTransitions.map fun (source, target, name) => (σ source, σ target, name))
  /-- without conflicts the actions are the same -/
  actions : t.table.isConsistent = true → ∀ i < t.automaton.states.size, ∀ name,
    t'.namedAction? (σ i) name = (t.namedAction? i name).map (.relabel σ)

/-- The tables of two rule lists are the same but for numbers and for what depends on the order in which
actions are written. -/
structure SameContent (t t' : Tables) : Prop where
  /-- they have the same `FIRST` sets -/
  first : ∀ name, t'.namedFirst name = t.namedFirst name
  /-- they have the same `FOLLOW` sets -/
  follow : ∀ name, t'.namedFollow name = t.namedFollow name
  /-- they have the same states -/
  states : ∃ σ, SameStates σ t t'
  /-- they have as many conflicts -/
  conflicts : t'.table.conflicts.length = t.table.conflicts.length
  /-- they are both consistent or both not -/
  isConsistent : t'.table.isConsistent = t.table.isConsistent

end Tables

/-! ## Numbers that keep the names -/

namespace Renumbering

/-- Symbols have the same names under other numbers. -/
structure KeepsNames (ρ : Renumbering) (g g' : Grammar) : Prop where
  /-- a terminal keeps its name -/
  terminal : ∀ t, g'.terminals.value? (ρ.terminal t).number = g.terminals.value? t.number
  /-- a nonterminal keeps its name -/
  nonterminal : ∀ n, g'.nonterminals.value? (ρ.nonterminal n).number = g.nonterminals.value? n.number
  /-- there are no other terminals -/
  mem_terminals : ∀ a ∈ g'.terminals.toList, a ∈ g.terminals.toList
  /-- there are no other nonterminals -/
  mem_nonterminals : ∀ a ∈ g'.nonterminals.toList, a ∈ g.nonterminals.toList

namespace KeepsNames

variable {ρ : Renumbering} {g g' : Grammar}

/-- A terminal's name has the new number of its old one. -/
theorem number?_terminal (h : ρ.KeepsNames g g') (a : String) :
    g'.terminals.number? a = (g.terminals.number? a).map fun i => (ρ.terminal ⟨i⟩).number :=
  Numbering.number?_eq_map (fun i => h.terminal ⟨i⟩) h.mem_terminals a

/-- A nonterminal's name has the new number of its old one. -/
theorem number?_nonterminal (h : ρ.KeepsNames g g') (a : String) :
    g'.nonterminals.number? a =
      (g.nonterminals.number? a).map fun i => (ρ.nonterminal ⟨i⟩).number :=
  Numbering.number?_eq_map (fun i => h.nonterminal ⟨i⟩) h.mem_nonterminals a

/-- The nonterminals are the renumbered ones. -/
theorem mem_allNonterminals (h : ρ.KeepsNames g g') (n' : Nonterminal) :
    n' ∈ g'.allNonterminals ↔ ∃ n ∈ g.allNonterminals, ρ.nonterminal n = n' := by
  have hvalue {g : Grammar} {n : Nonterminal} :
      n ∈ g.allNonterminals ↔ ∃ a, g.nonterminals.value? n.number = some a := by
    rw [Grammar.mem_allNonterminals]
    exact ⟨fun hn => ⟨_, Array.getElem?_eq_getElem hn⟩,
      fun ⟨a, ha⟩ => (Array.getElem?_eq_some_iff.mp ha).1⟩
  constructor
  · intro hn'
    obtain ⟨a, ha⟩ := hvalue.mp hn'
    -- the name is one of the first grammar, too, and has one number only
    obtain ⟨i, hi⟩ := Numbering.mem_toList.mp
      (h.mem_nonterminals a (Numbering.mem_toList.mpr ⟨_, ha⟩))
    have hplace := Numbering.value?_inj ((h.nonterminal ⟨i⟩).trans hi) ha
    exact ⟨⟨i⟩, hvalue.mpr ⟨a, hi⟩, congrArg Nonterminal.mk hplace⟩
  · rintro ⟨n, hn, rfl⟩
    rw [hvalue, h.nonterminal]
    exact hvalue.mp hn

/-- A renumbered terminal keeps its name. -/
theorem terminalName_terminal (h : ρ.KeepsNames g g') (t : Terminal) :
    g'.terminalName (ρ.terminal t) = g.terminalName t := by
  unfold Grammar.terminalName
  rw [h.terminal]

/-- A renumbered nonterminal keeps its name. -/
theorem nonterminalName_nonterminal (h : ρ.KeepsNames g g') (n : Nonterminal) :
    g'.nonterminalName (ρ.nonterminal n) = g.nonterminalName n := by
  unfold Grammar.nonterminalName
  rw [h.nonterminal]

/-- A renumbered symbol keeps its name. -/
theorem symbolName_symbol (h : ρ.KeepsNames g g') (x : Symbol) :
    g'.symbolName (ρ.symbol x) = g.symbolName x := by
  cases x with
  | terminal t => exact h.terminalName_terminal t
  | nonterminal n => exact h.nonterminalName_nonterminal n

/-- A rule is written the same. -/
theorem written_ofRule (h : ρ.KeepsNames g g') (r : Rule) :
    g'.written (ρ.ofRule r) = g.written r := by
  unfold Grammar.written
  rw [left_ofRule, h.nonterminalName_nonterminal, right_ofRule, List.map_map]
  exact congrArg (RuleDef.mk _) (List.map_congr_left fun x _ => h.symbolName_symbol x)

/-- A renumbered set of terminals keeps its names. -/
theorem namesIn_terminals (h : ρ.KeepsNames g g') (s : TerminalSet) :
    g'.namesIn (ρ.terminals s) = g.namesIn s := by
  unfold Grammar.namesIn
  ext a
  simp only [List.mem_toFinset, List.mem_map, SymbolSet.mem_toList, Renumbering.mem_terminals]
  constructor
  · rintro ⟨_, ⟨t, ht, rfl⟩, rfl⟩
    exact ⟨t, ht, (h.terminalName_terminal t).symm⟩
  · rintro ⟨t, ht, rfl⟩
    exact ⟨_, ⟨t, ht, rfl⟩, h.terminalName_terminal t⟩

end KeepsNames

/-! ## The same grammar under other numbers, by names -/

namespace IsIso

variable {ρ : Renumbering} {g g' : Grammar}

/-- A renumbered item reads as before. -/
theorem namedItem_item (h : ρ.IsIso g g') (hnames : ρ.KeepsNames g g') {i : Item}
    (hi : IsLive g (fun _ => True) i) : g'.namedItem (ρ.item i) = g.namedItem i := by
  obtain ⟨r, hr, -⟩ := hi
  unfold Grammar.namedItem
  rw [rule_item, (h.usesRule _ r hr trivial).1, hr.1, Option.map_some, Option.map_some,
    hnames.written_ofRule, marker_item]

/-- The `FIRST` sets are the same by name. -/
theorem namedFirst_eq (h : ρ.IsIso g g') (hnames : ρ.KeepsNames g g') (name : String) :
    (Tables.ofGrammar g').namedFirst name = (Tables.ofGrammar g).namedFirst name := by
  rw [Tables.namedFirst_ofGrammar, Tables.namedFirst_ofGrammar, hnames.number?_nonterminal,
    Option.bind_map]
  refine Option.bind_congr fun n _ => ?_
  rw [Function.comp_apply, h.first_eq, Option.map_map]
  refine Option.map_congr fun f _ => ?_
  exact congrArg (·, f.nullable) (hnames.namesIn_terminals f.terminals)

/-- The `FOLLOW` sets are the same by name. -/
theorem namedFollow_eq (h : ρ.IsIso g g') (hnames : ρ.KeepsNames g g') (name : String) :
    (Tables.ofGrammar g').namedFollow name = (Tables.ofGrammar g).namedFollow name := by
  rw [Tables.namedFollow_ofGrammar, Tables.namedFollow_ofGrammar, hnames.number?_nonterminal,
    Option.bind_map]
  refine Option.bind_congr fun n _ => ?_
  rw [Function.comp_apply, h.follow_eq, Option.map_map]
  exact Option.map_congr fun s _ => hnames.namesIn_terminals s

/-- An action of a state is the same by names. -/
theorem namedAction_action (h : ρ.IsIso g g') (hnames : ρ.KeepsNames g g') {follow : FollowSets}
    {i : Nat} {s : State} (hs : (Automaton.ofGrammar g).state? i = some s) {t : Terminal}
    {a : Action} (hmem : (t, a) ∈ s.candidates g follow) (σ : Nat → Nat) :
    g'.namedAction (ρ.action σ a) = (g.namedAction a).relabel σ := by
  cases a with
  | shift j => rfl
  | accept => rfl
  | reduce k =>
    obtain ⟨r, hr⟩ := Automaton.exists_usesRule_of_reduce h.wf hs hmem
    show NamedAction.reduce ((g'.rule? (ρ.rule k)).map g'.written) =
      .reduce ((g.rule? k).map g.written)
    rw [(h.usesRule k r hr trivial).1, hr.1, Option.map_some, Option.map_some,
      hnames.written_ofRule]

/-- Where there is no conflict, the cells are the same by name, with renumbered states. -/
theorem namedAction?_eq (h : ρ.IsIso g g') (hnames : ρ.KeepsNames g g')
    (hconsistent : (Tables.ofGrammar g).table.isConsistent = true) {i : Nat} {s : State}
    (hs : (Automaton.ofGrammar g).state? i = some s) (name : String) :
    (Tables.ofGrammar g').namedAction? (ρ.stateNumber g g' i) name =
      ((Tables.ofGrammar g).namedAction? i name).map (.relabel (ρ.stateNumber g g')) := by
  have haction : ∀ t, (Tables.ofGrammar g').table.action? (ρ.stateNumber g g' i) (ρ.terminal t) =
      ((Tables.ofGrammar g).table.action? i t).map (ρ.action (ρ.stateNumber g g')) := fun t =>
    h.action?_eq h.sameFollow hconsistent hs t
  rw [Tables.namedAction?_ofGrammar, Tables.namedAction?_ofGrammar, hnames.number?_terminal,
    Option.bind_map, Option.map_bind]
  refine Option.bind_congr fun n _ => ?_
  rw [Function.comp_apply, Function.comp_apply, haction, Option.map_map, Option.map_map]
  refine Option.map_congr fun a ha => ?_
  obtain ⟨s₁, hs₁, hmem⟩ := ParseTable.mem_candidates_of_action? ha
  exact h.namedAction_action hnames hs₁ hmem _

/-- The states are the same by names. -/
theorem sameStates (h : ρ.IsIso g g') (hnames : ρ.KeepsNames g g') :
    Tables.SameStates (ρ.stateNumber g g') (Tables.ofGrammar g) (Tables.ofGrammar g') where
  bijOn := h.bijOn_stateNumber
  zero := h.stateNumber_zero
  items := by
    intro i s hs
    obtain ⟨s', hs', hsame⟩ := h.exists_state? hs
    refine ⟨s', hs', ?_⟩
    have hperm := (h.perm_items (Automaton.mem_itemSets_of_state? h.wf hs).1).map g'.namedItem
    rw [← hsame.items, List.map_map] at hperm
    refine hperm.trans (List.Perm.of_eq (List.map_congr_left fun item hitem => ?_))
    exact h.namedItem_item hnames (h.isLive_of_state? hs item hitem)
  transitions := by
    refine (h.perm_transitions.map _).trans (List.Perm.of_eq ?_)
    unfold Tables.namedTransitions
    rw [List.map_map, List.map_map]
    refine List.map_congr_left fun t _ => ?_
    exact congrArg (fun name => (_, _, name)) (hnames.symbolName_symbol t.symbol)
  actions := fun hconsistent i hi name =>
    h.namedAction?_eq hnames hconsistent (Array.getElem?_eq_getElem hi) name

/-- **The tables are the same by names.** -/
theorem sameContent (h : ρ.IsIso g g') (hnames : ρ.KeepsNames g g') :
    (Tables.ofGrammar g).SameContent (Tables.ofGrammar g') where
  first := h.namedFirst_eq hnames
  follow := h.namedFollow_eq hnames
  states := ⟨_, h.sameStates hnames⟩
  conflicts := h.length_conflicts h.sameFollow
  isConsistent := h.isConsistent_eq h.sameFollow

end IsIso

end Renumbering

/-! ## Lists of the same rules -/

section SameRules

variable {defs defs' : List RuleDef}

/-- The names of a list are those of its heads and its bodies. -/
theorem mem_namesOf {a : String} : a ∈ namesOf defs ↔ ∃ d ∈ defs, a ∈ d.head :: d.body := by
  -- the names of each rule join those of the rules before
  have grow (names : Std.HashSet String) :
      a ∈ defs.foldl (fun names d => names.insertMany (d.head :: d.body)) names ↔
        a ∈ names ∨ ∃ d ∈ defs, a ∈ d.head :: d.body := by
    induction defs generalizing names with
    | nil => simp
    | cons d defs ih =>
      rw [List.foldl_cons, ih, Std.HashSet.mem_insertMany_list, List.contains_iff_mem, or_assoc]
      simp only [List.mem_cons, exists_eq_or_imp]
  unfold namesOf
  rw [grow]
  simp

/-- The fresh start symbol has the same name. -/
theorem startName_eq (hrules : ∀ d, d ∈ defs ↔ d ∈ defs')
    (hhead : defs.head?.map (·.head) = defs'.head?.map (·.head)) :
    startName defs = startName defs' := by
  have hnames : (namesOf defs).Equiv (namesOf defs') := by
    refine Std.HashSet.Equiv.of_forall_mem_iff fun a => ?_
    simp only [mem_namesOf, hrules]
  unfold startName freshName
  simp only [hhead, hnames.size_eq, hnames.contains_eq]

/-- The rules that are used have numbers in the other grammar. -/
theorem exists_rule_number {g g' : Grammar} (hsub : ∀ d ∈ defs, d ∈ defs')
    (hn : g.IsNumbered defs) (hn' : g'.IsNumbered defs')
    (hhead : defs.head?.map (·.head) = defs'.head?.map (·.head)) :
    ∃ rule : Nat → Nat, ∀ k r, g.UsesRule k r →
      g'.UsesRule (rule k) ((Renumbering.between hsub hn'.valid rule).ofRule r) := by
  have hnumber : ∀ k, ∃ k', ∀ r, g.UsesRule k r →
      g'.UsesRule k' ((Renumbering.between hsub hn'.valid id).ofRule r) := by
    intro k
    by_cases huses : ∃ r, g.UsesRule k r
    · obtain ⟨r, hr⟩ := huses
      obtain ⟨k', hk'⟩ := Grammar.exists_usesRule (Renumbering.ofRule_mem_rules hsub hn'.valid id
        hn hn' hhead (Grammar.mem_rules_of_rule? hr.1))
      refine ⟨k', fun r₁ hr₁ => ?_⟩
      rwa [← Option.some.inj (hr.1.symm.trans hr₁.1)]
    · exact ⟨0, fun r hr => absurd ⟨r, hr⟩ huses⟩
  choose rule hrule using hnumber
  exact ⟨rule, hrule⟩

/-- Symbols keep their names, the fresh start symbol included. -/
theorem keepsNames_between {g g' : Grammar} (haug : g.IsAugmentation defs)
    (haug' : g'.IsAugmentation defs') (hrules : ∀ d, d ∈ defs ↔ d ∈ defs')
    (hhead : defs.head?.map (·.head) = defs'.head?.map (·.head)) (rule : Nat → Nat) :
    (Renumbering.between (fun d => (hrules d).mp) haug'.valid rule).KeepsNames g g' where
  terminal := Renumbering.value?_between_terminal _ haug'.valid rule haug haug'
  nonterminal := by
    intro n
    by_cases hfresh : n = .freshStart
    · rw [hfresh, Renumbering.between_freshStart, ← Numbering.getElem?_toList,
        ← Numbering.getElem?_toList, haug.nonterminals, haug'.nonterminals,
        haug.nonterminalNames_eq, haug'.nonterminalNames_eq]
      exact congrArg some (startName_eq hrules hhead).symm
    · exact Renumbering.value?_between_nonterminal _ haug'.valid rule haug haug' hfresh
  mem_terminals := by
    rw [haug.terminals, haug'.terminals]
    exact terminalNames_subset fun d => (hrules d).mpr
  mem_nonterminals := by
    rw [haug.nonterminals, haug'.nonterminals, haug.nonterminalNames_eq,
      haug'.nonterminalNames_eq, startName_eq hrules hhead]
    exact List.cons_subset_cons _ (writtenNonterminals_subset fun d => (hrules d).mpr)

/-- **Lists of the same rules give the same grammar under other numbers,** when the head of the first
rule is the same. -/
theorem exists_isIso {g g' : Grammar} (hg : Grammar.augment defs = .ok g)
    (hg' : Grammar.augment defs' = .ok g') (hrules : ∀ d, d ∈ defs ↔ d ∈ defs')
    (hhead : defs.head?.map (·.head) = defs'.head?.map (·.head)) :
    ∃ ρ : Renumbering, ρ.IsIso g g' ∧ ρ.KeepsNames g g' := by
  have haug := Grammar.isAugmentation_of_augment hg
  have haug' := Grammar.isAugmentation_of_augment hg'
  have hn := Grammar.isNumbered_of_augment hg
  have hn' := Grammar.isNumbered_of_augment hg'
  have hsub : ∀ d ∈ defs, d ∈ defs' := fun d => (hrules d).mp
  obtain ⟨rule, hrule⟩ := exists_rule_number hsub hn hn' hhead
  have hnames := keepsNames_between haug haug' hrules hhead rule
  refine ⟨_, ?_, hnames⟩
  exact {
    wf := Grammar.wellFormed_of_augment hg
    wf' := Grammar.wellFormed_of_augment hg'
    freshStart := Renumbering.between_freshStart ..
    live_freshStart := trivial
    live_body := fun _ _ _ _ _ => trivial
    usesRule := fun k r hr _ => hrule k r hr
    exists_rule := by
      intro r' hr' n _ _
      rcases hn'.mem_rules.mp hr' with rfl | ⟨d, hd, rfl⟩
      · exact ⟨_, hn.mem_rules.mpr (Or.inl rfl),
          (Renumbering.between_startRule hsub hn'.valid rule hn.nonempty hhead).symm⟩
      · have hd' := (hrules d).mpr hd
        exact ⟨_, hn.mem_rules.mpr (Or.inr ⟨d, hd', rfl⟩),
          (Renumbering.between_ruleOf hsub hn'.valid rule hd').symm⟩
    endOfInput := Renumbering.between_endOfInput ..
    mem_allNonterminals := hnames.mem_allNonterminals }

end SameRules

/-! ## All tables -/

namespace Tables

/-- **The tables depend on the rules and the start symbol only,** not on the order of the rules or on how
often each of them comes. -/
theorem sameContent_of_mem_iff {defs defs' : List RuleDef} {t t' : Tables}
    (h : ofRules defs = .ok t) (h' : ofRules defs' = .ok t') (hrules : ∀ d, d ∈ defs ↔ d ∈ defs')
    (hhead : defs.head?.map (·.head) = defs'.head?.map (·.head)) : t.SameContent t' := by
  obtain ⟨g, hg, rfl⟩ := ofRules_eq_ok.mp h
  obtain ⟨g', hg', rfl⟩ := ofRules_eq_ok.mp h'
  obtain ⟨ρ, hiso, hnames⟩ := exists_isIso hg hg' hrules hhead
  exact hiso.sameContent hnames

end Tables

/-- The rules for words of one terminal in another order, another one of them twice. -/
def mixedStarRules : List RuleDef :=
  [⟨"S", ["B"]⟩, ⟨"S", []⟩, ⟨"S", ["a", "S"]⟩, ⟨"S", ["B"]⟩]

/-- Two orders of the same rules, the tables of which are consistent. -/
theorem Tables.sameContent_of_mem_iff_starRules : ∃ t t', ofRules starRules = .ok t ∧
    ofRules mixedStarRules = .ok t' ∧ (∀ d, d ∈ starRules ↔ d ∈ mixedStarRules) ∧
    starRules.head?.map (·.head) = mixedStarRules.head?.map (·.head) ∧
    t.table.isConsistent = true ∧ t.SameContent t' := by
  obtain ⟨t, ht, -, hconsistent⟩ := exists_starTables
  obtain ⟨g', hg'⟩ : ∃ g, Grammar.augment mixedStarRules = .ok g :=
    Grammar.exists_augment (by decide) (by unfold RuleDef.IsValid; decide) (by decide) (by decide)
  have ht' := ofRules_eq_ok.mpr ⟨g', hg', rfl⟩
  have hrules : ∀ d, d ∈ starRules ↔ d ∈ mixedStarRules := fun d =>
    ⟨(by decide : ∀ d ∈ starRules, d ∈ mixedStarRules) d,
      (by decide : ∀ d ∈ mixedStarRules, d ∈ starRules) d⟩
  exact ⟨t, _, ht, ht', hrules, by decide, hconsistent,
    sameContent_of_mem_iff ht ht' hrules (by decide)⟩

end ShiftReduce
