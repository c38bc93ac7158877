import ShiftReduce.Tables

/-! # The parser that the tables drive

The parser keeps the states it has come through on a stack and looks one terminal ahead. Behind the last
terminal of the word it sees the end of the input. -/

namespace ShiftReduce

/-- What the parser has before it. -/
structure Configuration where
  /-- the states, the current one first -/
  states : List Nat
  /-- the terminals that are still to be read -/
  input : List Terminal
  deriving DecidableEq

/-- What a step of the parser leads to. -/
inductive StepResult where
  /-- a terminal was read -/
  | shifted (next : Configuration)
  /-- the body of a rule was replaced by its head -/
  | reduced (rule : Nat) (next : Configuration)
  /-- the word is accepted -/
  | accepted
  /-- there is no action on the terminal ahead -/
  | rejected
  /-- a reduction finds too few states, or no state behind its head -/
  | stuck
  deriving DecidableEq

namespace Configuration

/-- Where the parser starts with a word. -/
def initial (word : List Terminal) : Configuration := ⟨[0], word⟩

/-- The current state. -/
def state (c : Configuration) : Nat := c.states.headD 0

/-- The terminal ahead. -/
def lookahead (c : Configuration) : Terminal := c.input.headD .endOfInput

end Configuration

/-- Replaces as many states as the body of a rule has symbols by the one behind its head. -/
def Tables.reduce (t : Tables) (rule : Nat) (c : Configuration) : StepResult :=
  match t.grammar.rule? rule with
  | none => .stuck
  | some r =>
    match c.states.drop r.right.size with
    | [] => .stuck
    | top :: below =>
      match t.table.goto? top r.left with
      | none => .stuck
      | some next => .reduced rule ⟨next :: top :: below, c.input⟩

/-- One step of the parser. -/
def Tables.step (t : Tables) (c : Configuration) : StepResult :=
  match t.table.action? c.state c.lookahead with
  | none => .rejected
  | some .accept => .accepted
  | some (.shift next) => .shifted ⟨next :: c.states, c.input.tail⟩
  | some (.reduce rule) => t.reduce rule c

/-- The parser comes from one configuration to another by a number of steps, in which it reduces some
rules, the latest first. -/
inductive Tables.Reaches (t : Tables) : Configuration → Nat → List Nat → Configuration → Prop
  | refl (c : Configuration) : Reaches t c 0 [] c
  | shift {c d e : Configuration} {n : Nat} {rules : List Nat} (h : Reaches t c n rules d)
      (step : t.step d = .shifted e) : Reaches t c (n + 1) rules e
  | reduce {c d e : Configuration} {n rule : Nat} {rules : List Nat} (h : Reaches t c n rules d)
      (step : t.step d = .reduced rule e) : Reaches t c (n + 1) (rule :: rules) e

/-- The parser accepts a word after a number of steps that reduce some rules, the latest first. -/
def Tables.Accepts (t : Tables) (word : List Terminal) (rules : List Nat) : Prop :=
  ∃ n c, t.Reaches (.initial word) n rules c ∧ t.step c = .accepted

end ShiftReduce
