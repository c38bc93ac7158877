import ShiftReduce.Proofs.CanonicalCollection
import ShiftReduce.Proofs.ConflictLog
import ShiftReduce.Proofs.Safety
import ShiftReduce.Proofs.SheetColumns

/-! # Sheets show their tables

A sheet shows some tables when each row has the cells of its state, each under the name of its symbol,
and the list of transitions agrees with the cells (`Sheet.IsFaithful`). Tables that are shown by one sheet
have the same actions and gotos (`Sheet.IsFaithful.determines`), and the sheet of the tables of a rule list
shows them (`Sheet.isFaithful_ofTables`). -/

namespace ShiftReduce

/-- A row is that of a state and has one cell for each of some columns. -/
structure SheetRow.IsRowOf (row : SheetRow) (i : Nat) (columns : List String) : Prop where
  /-- the row has the number of the state -/
  state : row.state = toString i
  /-- the row has these columns and no others -/
  columns_perm : row.cells.keys.Perm columns
  /-- no two cells share a column -/
  nodup : row.cells.keys.Nodup
  /-- no cell takes the place of another one when they are set one by one -/
  collected : row.cells = row.cells.entries.foldl (fun m e => m.insert e.1 e.2) {}

/-- A sheet shows some tables. -/
structure Sheet.IsFaithful (s : Sheet) (t : Tables) : Prop where
  /-- there is a list of items for each state -/
  length_states : s.states.length = t.automaton.states.size
  /-- there is a row of actions for each state -/
  length_actions : s.actions.length = t.automaton.states.size
  /-- there is a row of gotos for each state -/
  length_gotos : s.gotos.length = t.automaton.states.size
  /-- the items of a state are listed by their texts -/
  items : ∀ (i : Nat) (texts : List String), s.states[i]? = some texts → ∃ state,
    t.automaton.state? i = some state ∧ texts.map some = state.items.items.map (·.text? t.grammar)
  /-- a row of actions has a column for each terminal -/
  actionRow : ∀ (i : Nat) (row : SheetRow), s.actions[i]? = some row →
    row.IsRowOf i t.grammar.terminals.toList
  /-- a row of gotos has a column for each nonterminal but the fresh start symbol, which comes first -/
  gotoRow : ∀ (i : Nat) (row : SheetRow), s.gotos[i]? = some row →
    row.IsRowOf i t.grammar.nonterminals.toList.tail
  /-- the cell of a terminal holds the text of its action -/
  actionCell : ∀ (i : Nat) (row : SheetRow), s.actions[i]? = some row →
    ∀ x ∈ t.grammar.allTerminals, row.get? (t.grammar.terminalName x) =
      some (((t.table.action? i x).map Action.text).getD "")
  /-- the cell of a nonterminal holds the state behind it -/
  gotoCell : ∀ (i : Nat) (row : SheetRow), s.gotos[i]? = some row →
    ∀ n ∈ t.grammar.allNonterminals, n ≠ .freshStart → row.get? (t.grammar.nonterminalName n) =
      some (((t.table.goto? i n).map gotoText).getD "")
  /-- an action is told by its cell -/
  action_iff : ∀ i x a, t.table.action? i x = some a ↔ x ∈ t.grammar.allTerminals ∧
    ∃ row, s.actions[i]? = some row ∧ row.get? (t.grammar.terminalName x) = some a.text
  /-- where a nonterminal leads is told by its cell -/
  goto_iff : ∀ i n j, t.table.goto? i n = some j ↔ n ∈ t.grammar.allNonterminals ∧
    ∃ row, s.gotos[i]? = some row ∧ row.get? (t.grammar.nonterminalName n) = some (gotoText j)
  /-- the rows of transitions are the transitions, by the names of their symbols -/
  transitions : List.Forall₂ (fun row e => row.source = e.source ∧ row.target = e.target ∧
      row.symbol = t.grammar.symbolName e.symbol ∧
      isNonterminalName row.symbol = e.symbol.nonterminal?.isSome)
    s.transitions t.automaton.transitions
  /-- a transition on a nonterminal is in its goto cell -/
  gotoCell_of_transition : ∀ e ∈ s.transitions, isNonterminalName e.symbol = true →
    ∃ row, s.gotos[e.source]? = some row ∧ row.get? e.symbol = some (gotoText e.target)
  /-- a goto cell that is not empty comes from one transition -/
  transition_of_gotoCell : ∀ (i : Nat) (row : SheetRow), s.gotos[i]? = some row →
    ∀ name cell, row.get? name = some cell → cell ≠ "" →
      ∃ e, s.transitions.filter (fun e => e.source = i ∧ e.symbol = name) = [e] ∧
        cell = gotoText e.target
  /-- a transition on a terminal is in its action cell unless a conflict tells that it was lost -/
  actionCell_of_transition : ∀ e ∈ s.transitions, isNonterminalName e.symbol = false →
    ∃ row, s.actions[e.source]? = some row ∧
      (row.get? e.symbol = some (Action.shift e.target).text ↔
        ¬∃ c ∈ t.table.conflicts, c.state = e.source ∧
          t.grammar.terminalName c.terminal = e.symbol ∧ c.previous = .shift e.target)

namespace Sheet

/-! ## What a sheet tells -/

/-- **A sheet tells all actions and gotos**, when it is known how the symbols are called. -/
theorem IsFaithful.determines {s : Sheet} {t u : Tables} (ht : s.IsFaithful t) (hu : s.IsFaithful u)
    (hterminals : t.grammar.terminals.toList = u.grammar.terminals.toList)
    (hnonterminals : t.grammar.nonterminals.toList = u.grammar.nonterminals.toList) (i : Nat) :
    (∀ x, t.table.action? i x = u.table.action? i x) ∧
    (∀ n, t.table.goto? i n = u.table.goto? i n) := by
  constructor
  · intro x
    have hmem : x ∈ t.grammar.allTerminals ↔ x ∈ u.grammar.allTerminals := by
      rw [Grammar.mem_allTerminals, Grammar.mem_allTerminals, ← Numbering.length_toList, hterminals,
        Numbering.length_toList]
    have hname : t.grammar.terminalName x = u.grammar.terminalName x := by
      unfold Grammar.terminalName
      rw [← Numbering.getElem?_toList, hterminals, Numbering.getElem?_toList]
    refine Option.ext fun a => ?_
    rw [ht.action_iff, hu.action_iff, hmem, hname]
  · intro n
    have hmem : n ∈ t.grammar.allNonterminals ↔ n ∈ u.grammar.allNonterminals := by
      rw [Grammar.mem_allNonterminals, Grammar.mem_allNonterminals, ← Numbering.length_toList,
        hnonterminals, Numbering.length_toList]
    have hname : t.grammar.nonterminalName n = u.grammar.nonterminalName n := by
      unfold Grammar.nonterminalName
      rw [← Numbering.getElem?_toList, hnonterminals, Numbering.getElem?_toList]
    refine Option.ext fun j => ?_
    rw [ht.goto_iff, hu.goto_iff, hmem, hname]

/-! ## Rows -/

/-- A row with a cell for each of some columns, which have different names, has just these. -/
theorem isRowOf_cellsOf {κ : Type} {columns : List κ} {name : κ → String} {names : List String}
    (hperm : (columns.map name).Perm names) (hnames : names.Nodup) (i : Nat) (cell : κ → String) :
    (SheetRow.mk (toString i) (cellsOf columns name cell)).IsRowOf i names := by
  have hnodup : (cellsOf columns name cell).keys.Nodup := by
    rw [keys_cellsOf]
    exact hperm.nodup_iff.mpr hnames
  exact ⟨rfl, keys_cellsOf ▸ hperm, hnodup, (OrderedMap.foldl_insert_eq (m := {}) hnodup).symm⟩

/-- The cells of a row of actions. -/
def actionCells (g : Grammar) (r : Row) : OrderedMap String String :=
  cellsOf g.actionColumns g.terminalName fun x => ((r.actions.get? x).map Action.text).getD ""

/-- The cells of a row of gotos. -/
def gotoCells (g : Grammar) (r : Row) : OrderedMap String String :=
  cellsOf g.gotoColumns g.nonterminalName fun n => ((r.gotos.get? n).map gotoText).getD ""

section Rows

variable {t : Tables} {i : Nat} {row : SheetRow}

/-- The row of actions of a state has its number and the cells of its row of the table. -/
theorem getElem?_actions :
    (ofTables t).actions[i]? =
      t.table.rows[i]?.map fun r => ⟨toString i, actionCells t.grammar r⟩ := by
  unfold ofTables
  rw [List.getElem?_map, List.getElem?_zipIdx, Array.getElem?_toList, Option.map_map, Nat.zero_add]
  rfl

/-- The row of gotos of a state has its number and the cells of its row of the table. -/
theorem getElem?_gotos :
    (ofTables t).gotos[i]? = t.table.rows[i]?.map fun r => ⟨toString i, gotoCells t.grammar r⟩ := by
  unfold ofTables
  rw [List.getElem?_map, List.getElem?_zipIdx, Array.getElem?_toList, Option.map_map, Nat.zero_add]
  rfl

/-- A row of actions has the actions of its state in its cells. -/
theorem get?_action (wf : t.grammar.WellFormed) (h : (ofTables t).actions[i]? = some row)
    {x : Terminal} (hx : x ∈ t.grammar.allTerminals) :
    row.get? (t.grammar.terminalName x) =
      some (((t.table.action? i x).map Action.text).getD "") := by
  rw [getElem?_actions, Option.map_eq_some_iff] at h
  obtain ⟨r, hr, rfl⟩ := h
  unfold ParseTable.action?
  rw [hr]
  exact get?_cellsOf_of_mem (Grammar.nodup_map_actionColumns wf) ((Grammar.mem_actionColumns wf).mpr hx)

/-- A row of gotos has the gotos of its state in its cells, and no others. -/
theorem get?_goto (wf : t.grammar.WellFormed) (h : (ofTables t).gotos[i]? = some row)
    {column text : String} :
    row.get? column = some text ↔
      ∃ n, n ≠ .freshStart ∧ n ∈ t.grammar.allNonterminals ∧ t.grammar.nonterminalName n = column ∧
        ((t.table.goto? i n).map gotoText).getD "" = text := by
  rw [getElem?_gotos, Option.map_eq_some_iff] at h
  obtain ⟨r, hr, rfl⟩ := h
  unfold ParseTable.goto?
  rw [hr]
  have hcells : (gotoCells t.grammar r).get? column = some text ↔ _ :=
    get?_cellsOf (Grammar.nodup_map_gotoColumns wf)
  refine hcells.trans (exists_congr fun n => ?_)
  rw [Grammar.mem_gotoColumns, and_assoc]
  rfl

/-- An action is told by its cell. -/
theorem action?_eq_some_iff (wf : t.grammar.WellFormed) (hnumbers : t.NumbersExist) {x : Terminal}
    {a : Action} :
    t.table.action? i x = some a ↔ x ∈ t.grammar.allTerminals ∧
      ∃ row, (ofTables t).actions[i]? = some row ∧
        row.get? (t.grammar.terminalName x) = some a.text := by
  constructor
  · intro h
    obtain ⟨r, hr, hget⟩ := Option.bind_eq_some_iff.mp h
    have hentry := OrderedMap.mem_entries_of_get? hget
    have hmem : r ∈ t.table.rows.toList := Array.mem_toList_iff.mpr (Array.mem_of_getElem? hr)
    have hx := Grammar.mem_allTerminals.mpr (hnumbers.actions r hmem _ hentry).1
    have hrow : (ofTables t).actions[i]? = some ⟨toString i, actionCells t.grammar r⟩ := by
      rw [getElem?_actions, hr]
      rfl
    refine ⟨hx, _, hrow, ?_⟩
    rw [get?_action wf hrow hx, h]
    rfl
  · rintro ⟨hx, row, hrow, hcell⟩
    rw [get?_action wf hrow hx, Option.some.injEq] at hcell
    exact (getD_text_eq_iff Action.text_injective Action.text_ne_empty).mp hcell

/-- Where a nonterminal leads is told by its cell. -/
theorem goto?_eq_some_iff (wf : t.grammar.WellFormed)
    (hfresh : t.table.goto? i .freshStart = none) (hnumbers : t.NumbersExist) {n : Nonterminal}
    {j : Nat} :
    t.table.goto? i n = some j ↔ n ∈ t.grammar.allNonterminals ∧
      ∃ row, (ofTables t).gotos[i]? = some row ∧
        row.get? (t.grammar.nonterminalName n) = some (gotoText j) := by
  constructor
  · intro h
    obtain ⟨r, hr, hget⟩ := Option.bind_eq_some_iff.mp h
    have hentry := OrderedMap.mem_entries_of_get? hget
    have hmem : r ∈ t.table.rows.toList := Array.mem_toList_iff.mpr (Array.mem_of_getElem? hr)
    have hn := Grammar.mem_allNonterminals.mpr (hnumbers.gotos r hmem _ hentry).1
    have hrow : (ofTables t).gotos[i]? = some ⟨toString i, gotoCells t.grammar r⟩ := by
      rw [getElem?_gotos, hr]
      rfl
    refine ⟨hn, _, hrow, (get?_goto wf hrow).mpr ⟨n, ?_, hn, rfl, ?_⟩⟩
    · rintro rfl
      rw [hfresh] at h
      cases h
    · rw [h]
      rfl
  · rintro ⟨hn, row, hrow, hcell⟩
    obtain ⟨m, -, hm, hname, htext⟩ := (get?_goto wf hrow).mp hcell
    obtain rfl := Grammar.nonterminalName_inj hm hn hname
    exact (getD_text_eq_iff gotoText_injective gotoText_ne_empty).mp htext

end Rows

/-! ## Items -/

/-- All items of a state have texts. -/
theorem map_some_items {g : Grammar} (wf : g.WellFormed) {i : Nat} {s : State}
    (hs : (Automaton.ofGrammar g).state? i = some s) :
    (s.items.items.filterMap (·.text? g)).map some = s.items.items.map (·.text? g) := by
  rw [List.map_filterMap, ← List.filterMap_eq_map]
  refine List.filterMap_congr fun item hitem => ?_
  obtain ⟨r, hr, -⟩ := Automaton.exists_rule_of_mem_items wf hs hitem
  simp [Item.text?, hr]

/-! ## Transitions -/

section Transitions

variable {g : Grammar} {defs : List RuleDef} {e : TransitionRow}

/-- A transition as a row. -/
def rowOfTransition (g : Grammar) (e : Transition) : TransitionRow :=
  ⟨e.source, e.target, g.symbolName e.symbol⟩

/-- Transitions go over symbols of the grammar. -/
theorem hasSymbol_of_mem_transitions (wf : g.WellFormed) {e : Transition}
    (he : e ∈ (Automaton.ofGrammar g).transitions) : g.HasSymbol e.symbol := by
  obtain ⟨s, hs, hedge⟩ := Automaton.mem_transitions.mp he
  exact (Tables.exists_of_mem_edges wf hs hedge).1

/-- The row of a transition tells of which class its symbol is. -/
theorem isNonterminalName_rowOfTransition (h : g.IsAugmentation defs) {e : Transition}
    (he : e ∈ (Automaton.ofGrammar g).transitions) :
    isNonterminalName (rowOfTransition g e).symbol = e.symbol.nonterminal?.isSome :=
  h.isNonterminalName_symbolName (hasSymbol_of_mem_transitions h.wellFormed he)

/-- There is one row for the transition from a state on a symbol. -/
theorem filter_rowOfTransition (h : g.IsAugmentation defs) {e : Transition}
    (he : e ∈ (Automaton.ofGrammar g).transitions) :
    (((Automaton.ofGrammar g).transitions.map (rowOfTransition g)).filter fun row =>
      row.source = e.source ∧ row.symbol = g.symbolName e.symbol) = [rowOfTransition g e] := by
  have wf := h.wellFormed
  have hkeys := Automaton.nodup_transitions wf
  rw [List.filter_map, filter_eq_singleton (a := e) hkeys.of_map fun d => ?_, List.map_singleton]
  rw [List.mem_filter, Function.comp_apply, decide_eq_true_eq]
  constructor
  · rintro ⟨hd, hsource, hsymbol⟩
    have hsymbol := h.symbolName_inj (hasSymbol_of_mem_transitions wf hd)
      (hasSymbol_of_mem_transitions wf he) hsymbol
    exact List.inj_on_of_nodup_map hkeys hd he (Prod.ext hsource hsymbol)
  · rintro rfl
    exact ⟨he, rfl, rfl⟩

end Transitions

/-! ## The sheet of a rule list -/

section OfGrammar

variable {g : Grammar} {defs : List RuleDef}

/-- The gotos are the transitions on nonterminals. -/
theorem goto?_eq_some_iff_mem_transitions (wf : g.WellFormed) {i j : Nat} {n : Nonterminal} :
    (Tables.ofGrammar g).table.goto? i n = some j ↔
      ⟨i, j, .nonterminal n⟩ ∈ (Automaton.ofGrammar g).transitions :=
  (ParseTable.goto?_eq_some wf).trans
    (Automaton.mem_transitions (t := ⟨i, j, .nonterminal n⟩)).symm

/-- No state has a goto on the fresh start. -/
theorem goto?_freshStart (wf : g.WellFormed) (i : Nat) :
    (Tables.ofGrammar g).table.goto? i .freshStart = none := by
  rw [Option.eq_none_iff_forall_ne_some]
  intro j hj
  rw [goto?_eq_some_iff_mem_transitions wf] at hj
  exact (hasSymbol_of_mem_transitions wf hj).1 rfl

/-- **The action cell of a transition on a terminal holds the shift, unless a conflict tells that it was
lost.** -/
theorem get?_action_eq_shift_iff (h : g.IsAugmentation defs) (hnumbers : (Tables.ofGrammar g).NumbersExist)
    {i j : Nat} {x : Terminal} (hx : ⟨i, j, .terminal x⟩ ∈ (Automaton.ofGrammar g).transitions)
    {row : SheetRow} (hrow : (ofTables (.ofGrammar g)).actions[i]? = some row) :
    row.get? (g.terminalName x) = some (Action.shift j).text ↔
      ¬∃ c ∈ (Tables.ofGrammar g).table.conflicts, c.state = i ∧
        g.terminalName c.terminal = g.terminalName x ∧ c.previous = .shift j := by
  have wf := h.wellFormed
  have hmem : x ∈ g.allTerminals :=
    Grammar.mem_allTerminals.mpr (hasSymbol_of_mem_transitions wf hx).2
  obtain ⟨s, hs, hedge⟩ := Automaton.mem_transitions.mp hx
  have hcell : row.get? (g.terminalName x) = _ := get?_action (t := .ofGrammar g) wf hrow hmem
  rw [hcell, Option.some.injEq, getD_text_eq_iff Action.text_injective Action.text_ne_empty]
  refine (ParseTable.action?_eq_shift_iff _ wf hs hedge).trans (not_congr (exists_congr fun c => ?_))
  refine and_congr_right fun hc => and_congr_right fun _ => and_congr_left fun _ => ?_
  -- a terminal is told by its name
  have hterminal := Grammar.mem_allTerminals.mpr (hnumbers.conflicts c hc).2.1
  exact ⟨congrArg _, Grammar.terminalName_inj hterminal hmem⟩

/-- **The sheet of the tables of a rule list shows them.** -/
theorem isFaithful_ofGrammar (h : g.IsAugmentation defs)
    (hnumbers : (Tables.ofGrammar g).NumbersExist) :
    (ofTables (.ofGrammar g)).IsFaithful (.ofGrammar g) := by
  have wf : (Tables.ofGrammar g).grammar.WellFormed := h.wellFormed
  have hrows := hnumbers.rows
  have hfresh := goto?_freshStart (g := g) wf
  constructor
  case length_states => simp [ofTables]
  case length_actions => simp [ofTables, hrows]
  case length_gotos => simp [ofTables, hrows]
  case items =>
    intro i texts htexts
    obtain ⟨s, hs, rfl⟩ := Option.map_eq_some_iff.mp (List.getElem?_map.symm.trans htexts)
    rw [Array.getElem?_toList] at hs
    exact ⟨s, hs, map_some_items wf hs⟩
  case actionRow =>
    intro i row hrow
    rw [getElem?_actions, Option.map_eq_some_iff] at hrow
    obtain ⟨r, -, rfl⟩ := hrow
    exact isRowOf_cellsOf (Grammar.map_actionColumns_perm wf) g.terminals.nodup_toList i _
  case gotoRow =>
    intro i row hrow
    rw [getElem?_gotos, Option.map_eq_some_iff] at hrow
    obtain ⟨r, -, rfl⟩ := hrow
    exact isRowOf_cellsOf (Grammar.map_gotoColumns_perm wf)
      (g.nonterminals.nodup_toList.sublist (List.tail_sublist _)) i _
  case actionCell => exact fun i row hrow x hx => get?_action wf hrow hx
  case gotoCell =>
    exact fun i row hrow n hn hne => (get?_goto wf hrow).mpr ⟨n, hne, hn, rfl, rfl⟩
  case action_iff => exact fun i x a => action?_eq_some_iff wf hnumbers
  case goto_iff => exact fun i n j => goto?_eq_some_iff wf (hfresh i) hnumbers
  case transitions =>
    show List.Forall₂ _ ((Automaton.ofGrammar g).transitions.map (rowOfTransition g))
      (Automaton.ofGrammar g).transitions
    rw [List.forall₂_map_left_iff, List.forall₂_same]
    exact fun e he => ⟨rfl, rfl, rfl, isNonterminalName_rowOfTransition h he⟩
  case gotoCell_of_transition =>
    intro row hrow hclass
    obtain ⟨⟨i, j, x⟩, he, rfl⟩ := List.mem_map.mp hrow
    have hkind := (isNonterminalName_rowOfTransition h he).symm.trans hclass
    cases x with
    | terminal x => cases hkind
    | nonterminal n =>
      have hgoto := (goto?_eq_some_iff_mem_transitions wf).mpr he
      exact ((goto?_eq_some_iff wf (hfresh i) hnumbers).mp hgoto).2
  case transition_of_gotoCell =>
    intro i row hrow name cell hcell hne
    obtain ⟨n, -, -, rfl, rfl⟩ := (get?_goto wf hrow).mp hcell
    cases hgoto : (Tables.ofGrammar g).table.goto? i n with
    | none =>
      rw [hgoto] at hne
      exact absurd rfl hne
    | some j =>
      exact ⟨_, filter_rowOfTransition h ((goto?_eq_some_iff_mem_transitions wf).mp hgoto), rfl⟩
  case actionCell_of_transition =>
    intro row hrow hclass
    obtain ⟨⟨i, j, x⟩, he, rfl⟩ := List.mem_map.mp hrow
    have hkind := (isNonterminalName_rowOfTransition h he).symm.trans hclass
    cases x with
    | terminal x =>
      have hlt : i < (ofTables (.ofGrammar g)).actions.length := by
        have hi := (hnumbers.transitions _ he).1
        simpa [ofTables, hrows] using hi
      exact ⟨_, List.getElem?_eq_getElem hlt,
        get?_action_eq_shift_iff h hnumbers he (List.getElem?_eq_getElem hlt)⟩
    | nonterminal n => cases hkind

end OfGrammar

/-- **The sheet of the tables of a rule list shows them**, and no tables with other actions or gotos. With
no more than `2 ^ 32` states, the numbers that it shows are those that a counter of `32` bits hands out
(`Assembly.HoldsAutomaton`). -/
theorem isFaithful_ofTables {defs : List RuleDef} {t : Tables} (h : Tables.ofRules defs = .ok t) :
    (ofTables t).IsFaithful t ∧ ∀ u : Tables, (ofTables t).IsFaithful u →
      u.grammar.terminals.toList = t.grammar.terminals.toList →
      u.grammar.nonterminals.toList = t.grammar.nonterminals.toList →
      ∀ i, (∀ x, u.table.action? i x = t.table.action? i x) ∧
        (∀ n, u.table.goto? i n = t.table.goto? i n) := by
  obtain ⟨g, hg, rfl⟩ := Tables.ofRules_eq_ok.mp h
  have haug := Grammar.isAugmentation_of_augment hg
  have hnumbers :=
    Tables.numbersExist_ofGrammar haug.wellFormed (Grammar.hasRoom_of_augment hg)
  have hfaithful := isFaithful_ofGrammar haug hnumbers
  exact ⟨hfaithful, fun u hu => hu.determines hfaithful⟩

/-- Terminals may be called as cells are. This rule list has conflicts and a nonterminal without rules. -/
theorem isFaithful_ofTables_cellNames : ∃ t,
    Tables.ofRules [⟨"E", ["E", "S3", "E"]⟩, ⟨"E", ["I1"]⟩, ⟨"E", ["Accept", "B"]⟩] = .ok t ∧
    (ofTables t).IsFaithful t := by
  obtain ⟨g, hg⟩ : ∃ g, Grammar.augment
      [⟨"E", ["E", "S3", "E"]⟩, ⟨"E", ["I1"]⟩, ⟨"E", ["Accept", "B"]⟩] = .ok g :=
    Grammar.exists_augment (by decide) (by unfold RuleDef.IsValid; decide) (by decide) (by decide)
  have ht := Tables.ofRules_eq_ok.mpr ⟨g, hg, rfl⟩
  exact ⟨.ofGrammar g, ht, (isFaithful_ofTables ht).1⟩

end Sheet

end ShiftReduce
