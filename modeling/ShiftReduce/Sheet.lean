import ShiftReduce.Json.Writer
import ShiftReduce.Tables

/-! # Tables as sheets

The tables as rows of text: the items of each state, the transitions, and for each state one row of the
action table and one of the goto table. A row has a cell for every column, empty where there is
nothing. -/

namespace ShiftReduce

/-- A transition with the name of its symbol. -/
structure TransitionRow where
  /-- the state that is left -/
  source : Nat
  /-- the state that is entered -/
  target : Nat
  /-- the symbol that is read -/
  symbol : String

/-- A row of a table. -/
structure SheetRow where
  /-- the number of the state -/
  state : String
  /-- the cells by column -/
  cells : OrderedMap String String

/-- The text of a cell, if there is such a column. -/
def SheetRow.get? (r : SheetRow) (column : String) : Option String := r.cells.get? column

/-- The tables as rows of text. -/
structure Sheet where
  /-- the items of each state -/
  states : List (List String)
  /-- the transitions -/
  transitions : List TransitionRow
  /-- the action table -/
  actions : List SheetRow
  /-- the goto table -/
  gotos : List SheetRow

/-! ## Columns -/

/-- The columns of the action table: the terminals, the end of the input last. -/
def Grammar.actionColumns (g : Grammar) : List Terminal :=
  g.allTerminals.filter (· ≠ .endOfInput) ++ [.endOfInput]

/-- The columns of the goto table: the nonterminals with rules, then the others. -/
def Grammar.gotoColumns (g : Grammar) : List Nonterminal :=
  let columns := g.allNonterminals.filter (· ≠ .freshStart)
  columns.filter g.isDefined ++ columns.filter fun n => !g.isDefined n

/-! ## Rows -/

namespace Sheet

/-- The row of the action table. -/
def actionRow (g : Grammar) (state : Nat) (r : Row) : SheetRow where
  state := toString state
  cells := ⟨g.actionColumns.map fun t =>
    (g.terminalName t, ((r.actions.get? t).map Action.text).getD "")⟩

/-- The row of the goto table. -/
def gotoRow (g : Grammar) (state : Nat) (r : Row) : SheetRow where
  state := toString state
  cells := ⟨g.gotoColumns.map fun n =>
    (g.nonterminalName n, ((r.gotos.get? n).map fun i => "I" ++ toString i).getD "")⟩

/-- The sheet of some tables. -/
def ofTables (t : Tables) : Sheet where
  states := t.automaton.states.toList.map fun s => s.items.items.filterMap (·.text? t.grammar)
  transitions := t.automaton.transitions.map fun e =>
    ⟨e.source, e.target, t.grammar.symbolName e.symbol⟩
  actions := t.table.rows.toList.zipIdx.map fun (r, i) => actionRow t.grammar i r
  gotos := t.table.rows.toList.zipIdx.map fun (r, i) => gotoRow t.grammar i r

/-! ## JSON -/

/-- A transition as a JSON value. -/
def transitionToJson (t : TransitionRow) : Json String :=
  .object [("from", .ofNat t.source), ("to", .ofNat t.target), ("symbol", .string t.symbol)]

/-- A row as a JSON value: the state and then the cells. -/
def rowToJson (r : SheetRow) : Json String :=
  .object (("state", .string r.state) :: r.cells.entries.map fun (column, cell) =>
    (column, .string cell))

/-- A sheet as a JSON value. -/
def toJson (s : Sheet) : Json String :=
  .object [
    ("states", .array (s.states.map .ofStrings)),
    ("transitions", .array (s.transitions.map transitionToJson)),
    ("actionTable", .array (s.actions.map rowToJson)),
    ("gotoTable", .array (s.gotos.map rowToJson))]

end Sheet

end ShiftReduce
