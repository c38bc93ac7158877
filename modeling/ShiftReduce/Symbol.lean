/-! # Grammar symbols

Symbols are numbers that were given out when the grammar was read. Two numbers are reserved: terminal
`0` is the end of the input, and nonterminal `0` is the fresh start symbol. How a symbol is written
decides its class: a single uppercase ASCII letter is a nonterminal, anything else is a terminal. -/

namespace ShiftReduce

/-! ## Spelling -/

/-- The name of the terminal that stands for the end of the input. -/
def endMark : String := "$"

/-- The mark of the empty word. -/
def emptyMark : String := "ε"

/-- A nonterminal is written as exactly one uppercase ASCII letter. -/
def isNonterminalName (name : String) : Bool :=
  match name.toList with
  | [c] => c.isUpper
  | _ => false

/-- Every other name is that of a terminal. -/
def isTerminalName (name : String) : Bool := !isNonterminalName name

/-! ## Numbered symbols -/

/-- A terminal symbol of a grammar. -/
structure Terminal where
  /-- its number; `0` is the end of the input -/
  number : Nat
  deriving DecidableEq, Hashable

/-- A nonterminal symbol of a grammar. -/
structure Nonterminal where
  /-- its number; `0` is the fresh start symbol -/
  number : Nat
  deriving DecidableEq, Hashable

/-- The end of the input. -/
def Terminal.endOfInput : Terminal := ⟨0⟩

/-- The start symbol of the augmented grammar, which occurs in no rule that was read. -/
def Nonterminal.freshStart : Nonterminal := ⟨0⟩

/-- A symbol in the body of a rule. -/
inductive Symbol where
  /-- a terminal symbol -/
  | terminal (t : Terminal)
  /-- a nonterminal symbol -/
  | nonterminal (n : Nonterminal)
  deriving DecidableEq, Hashable

/-- The nonterminal that a symbol is, if it is one. -/
def Symbol.nonterminal? : Symbol → Option Nonterminal
  | .terminal _ => none
  | .nonterminal n => some n

/-- The terminal that a symbol is, if it is one. -/
def Symbol.terminal? : Symbol → Option Terminal
  | .terminal t => some t
  | .nonterminal _ => none

/-- A symbol gives the nonterminal that it is. -/
@[simp] theorem Symbol.nonterminal?_eq_some {s : Symbol} {n : Nonterminal} :
    s.nonterminal? = some n ↔ s = .nonterminal n := by
  cases s <;> simp [Symbol.nonterminal?]

/-- A symbol gives the terminal that it is. -/
@[simp] theorem Symbol.terminal?_eq_some {s : Symbol} {t : Terminal} :
    s.terminal? = some t ↔ s = .terminal t := by
  cases s <;> simp [Symbol.terminal?]

/-! ## Labels

A label names a symbol, a rule or a state by its number alone, in at least three digits. -/

/-- A number in at least three digits. -/
def threeDigits (n : Nat) : String :=
  let digits := toString n
  String.ofList (List.replicate (3 - digits.length) '0') ++ digits

/-- The label of a terminal. -/
def Terminal.label (t : Terminal) : String :=
  if t = .endOfInput then "T#End" else "T#" ++ threeDigits t.number

/-- The label of a nonterminal. -/
def Nonterminal.label (n : Nonterminal) : String :=
  if n = .freshStart then "N#Start" else "N#" ++ threeDigits n.number

/-- The label of a symbol. -/
def Symbol.label : Symbol → String
  | .terminal t => t.label
  | .nonterminal n => n.label

/-- The label of the rule with a given number; rule `0` is the one that accepts. -/
def ruleLabel (rule : Nat) : String :=
  if rule = 0 then "P#Accept" else "P#" ++ threeDigits rule

/-- The label of the state with a given number. -/
def stateLabel (state : Nat) : String := "S#" ++ threeDigits state

end ShiftReduce
