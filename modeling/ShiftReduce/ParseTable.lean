import ShiftReduce.Automaton
import ShiftReduce.Follow

/-! # SLR(1) parse tables

A state offers an action for each terminal that it can shift, and for each complete item the reduction
of its rule on every terminal that can follow the head. The actions are written into the row of the
state one after the other. Where two meet in a cell the later one stays, and the loss of the earlier one
is recorded as a conflict. -/

namespace ShiftReduce

/-! ## Actions -/

/-- What a parser does in a state on a terminal. -/
inductive Action where
  /-- read the terminal and enter a state -/
  | shift (state : Nat)
  /-- replace the body of a rule by its head -/
  | reduce (rule : Nat)
  /-- accept the input -/
  | accept
  deriving DecidableEq

/-- The text of an action in a table cell. -/
def Action.text : Action → String
  | .shift state => "S" ++ toString state
  | .reduce rule => "R" ++ toString rule
  | .accept => "Accept"

/-- The actions that a complete item offers: the reduction of its rule on what can follow the head,
and for the rule that starts the derivations acceptance at the end of the input. -/
def reductionsOf (g : Grammar) (follow : FollowSets) (rule : Nat) : List (Terminal × Action) :=
  if rule = 0 then [(.endOfInput, .accept)]
  else
    match (g.rule? rule).bind fun r => follow.get? r.left with
    | some terminals => terminals.toList.map (·, .reduce rule)
    | none => []

/-- All actions that a state offers, in the order in which they are written. -/
def State.candidates (g : Grammar) (follow : FollowSets) (s : State) : List (Terminal × Action) :=
  s.shifts.map (fun (t, target) => (t, .shift target)) ++
    (s.reduces g).flatMap (reductionsOf g follow)

/-! ## Conflicts -/

/-- Which actions meet in a conflict. -/
inductive ConflictKind where
  /-- a shift and a reduction -/
  | shiftReduce
  /-- two reductions -/
  | reduceReduce
  /-- acceptance and a reduction -/
  | acceptReduce
  deriving DecidableEq

/-- The name of a kind of conflict. -/
def ConflictKind.text : ConflictKind → String
  | .shiftReduce => "shift/reduce"
  | .reduceReduce => "reduce/reduce"
  | .acceptReduce => "accept/reduce"

/-- An action that was replaced by a later one. -/
structure Conflict where
  /-- the state -/
  state : Nat
  /-- the terminal -/
  terminal : Terminal
  /-- the action that was lost -/
  previous : Action
  /-- the action that took its place -/
  current : Action
  deriving DecidableEq

/-- Which actions meet. -/
def Conflict.kind (c : Conflict) : ConflictKind :=
  match c.previous, c.current with
  | .accept, _ | _, .accept => .acceptReduce
  | .reduce _, .reduce _ => .reduceReduce
  | _, _ => .shiftReduce

/-- A conflict as text. -/
def Conflict.text (g : Grammar) (c : Conflict) : String :=
  c.kind.text ++ " conflict in state " ++ toString c.state ++ " on `" ++ g.terminalName c.terminal ++
    "': " ++ c.previous.text ++ " was overwritten by " ++ c.current.text

/-! ## Rows -/

/-- The row of a state. -/
structure Row where
  /-- the action on each terminal that has one -/
  actions : OrderedMap Terminal Action
  /-- the state behind each nonterminal that can be read -/
  gotos : OrderedMap Nonterminal Nat

/-- The conflict when an action is written into a cell that holds another one. -/
def conflict? (state : Nat) (cells : OrderedMap Terminal Action) (t : Terminal)
    (current : Action) : Option Conflict :=
  ((cells.get? t).filter (· ≠ current)).map fun previous => ⟨state, t, previous, current⟩

/-- The cells of a state after some actions are written, and the conflicts from writing them. -/
def writeActions (state : Nat) :
    OrderedMap Terminal Action → List (Terminal × Action) →
      OrderedMap Terminal Action × List Conflict
  | cells, [] => (cells, [])
  | cells, (t, current) :: rest =>
    let lost := conflict? state cells t current
    let (cells, conflicts) := writeActions state (cells.insert t current) rest
    (cells, lost.toList ++ conflicts)

/-! ## Tables -/

/-- The action and goto tables, with the conflicts met in filling them. -/
structure ParseTable where
  /-- the row of each state -/
  rows : Array Row
  /-- the conflicts, state by state -/
  conflicts : List Conflict

namespace ParseTable

/-- The row of a state, with its conflicts. -/
def rowOf (g : Grammar) (follow : FollowSets) (state : Nat) (s : State) : Row × List Conflict :=
  let (actions, conflicts) := writeActions state {} (s.candidates g follow)
  (⟨actions, ⟨s.gotos⟩⟩, conflicts)

/-- The tables of an automaton. -/
def ofAutomaton (g : Grammar) (follow : FollowSets) (a : Automaton) : ParseTable :=
  let rows := a.states.toList.zipIdx.map fun (s, i) => rowOf g follow i s
  ⟨(rows.map (·.1)).toArray, rows.flatMap (·.2)⟩

/-- The action in a state on a terminal. -/
def action? (p : ParseTable) (state : Nat) (t : Terminal) : Option Action :=
  p.rows[state]?.bind (·.actions.get? t)

/-- The state behind a nonterminal in a state. -/
def goto? (p : ParseTable) (state : Nat) (n : Nonterminal) : Option Nat :=
  p.rows[state]?.bind (·.gotos.get? n)

/-- No action was lost. -/
def isConsistent (p : ParseTable) : Bool := p.conflicts.isEmpty

/-! ## Text -/

/-- An action as it is described in the report. -/
def describe (g : Grammar) : Action → String
  | .shift state => "shift(" ++ stateLabel state ++ ")"
  | .reduce rule => "reduce(" ++ ((g.rule? rule).map g.ruleText).getD "" ++ ")"
  | .accept => "accept"

/-- A row as a report. -/
def rowText (g : Grammar) (state : Nat) (r : Row) : String :=
  lines <|
    ["#### State " ++ stateLabel state, "## actions"] ++
    r.actions.entries.map (fun (t, a) => "- " ++ g.terminalName t ++ " => " ++ describe g a) ++
    "## gotos" ::
    r.gotos.entries.map (fun (n, i) =>
      "- " ++ g.nonterminalName n ++ " => goto(" ++ stateLabel i ++ ")")

/-- The tables as a report, with the conflicts, if there are any. -/
def text (g : Grammar) (p : ParseTable) : String :=
  let rows := p.rows.toList.zipIdx.map fun (r, i) => rowText g i r
  let conflicts := p.conflicts.map fun c => "- " ++ c.text g
  paragraphs (rows ++
    if conflicts.isEmpty then [] else [lines ("## conflicts" :: conflicts)])

end ParseTable

end ShiftReduce
