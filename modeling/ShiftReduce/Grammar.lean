import ShiftReduce.Numbering
import ShiftReduce.Symbol
import ShiftReduce.Text
import Std.Data.HashSet

/-! # Augmented grammars

A grammar holds its symbols and rules by number. Rule `0` replaces the fresh start symbol by the start
symbol that was asked for; the rules that were read follow in their order, so that rule `k` of the list
has number `k + 1`. A rule that occurs again later keeps its number but is superseded: only the last
copy is used in items. -/

namespace ShiftReduce

/-- A production rule over numbered symbols. -/
structure Rule where
  /-- the nonterminal that is replaced -/
  left : Nonterminal
  /-- what it is replaced by -/
  right : Array Symbol
  deriving DecidableEq, Hashable

/-! ## Later copies -/

section OccursLater

variable {α : Type} [BEq α] [Hashable α]

/-- For each element of a list whether it occurs again further on, with the set of the elements. -/
def scanLater (l : List α) : List Bool × Std.HashSet α :=
  l.foldr (fun a (flags, seen) => (seen.contains a :: flags, seen.insert a)) ([], ∅)

/-- For each element of a list whether it occurs again further on. -/
def occursLater (l : List α) : List Bool := (scanLater l).1

/-- No places, no later copies. -/
@[simp] theorem occursLater_nil : occursLater ([] : List α) = [] := rfl

/-- The scan from the right ends with the set of everything it passed. -/
theorem contains_scanLater [LawfulBEq α] (l : List α) (a : α) :
    (scanLater l).2.contains a = l.contains a := by
  induction l with
  | nil => simp [scanLater]
  | cons b l ih =>
    have : (scanLater (b :: l)).2 = (scanLater l).2.insert b := rfl
    rw [this, Std.HashSet.contains_insert, ih, List.contains_cons, BEq.comm]

/-- **A place is marked when its value comes again behind it.** -/
@[simp] theorem occursLater_cons [LawfulBEq α] (a : α) (l : List α) :
    occursLater (a :: l) = l.contains a :: occursLater l := by
  have : occursLater (a :: l) = (scanLater l).2.contains a :: occursLater l := rfl
  rw [this, contains_scanLater]

end OccursLater

/-! ## Grammars -/

/-- An augmented grammar. -/
structure Grammar where
  /-- the names of the terminals; number `0` is the end of the input -/
  terminals : Numbering String
  /-- the names of the nonterminals; number `0` is the fresh start symbol -/
  nonterminals : Numbering String
  /-- the rules; number `0` starts the derivations -/
  rules : Array Rule
  /-- the start symbol that was asked for -/
  start : Nonterminal
  /-- for each rule whether a later one is the same -/
  superseded : Array Bool := (occursLater rules.toList).toArray
  /-- the flags are those of the rules -/
  superseded_eq : superseded = (occursLater rules.toList).toArray := by rfl

namespace Grammar

/-- The rule with a given number, if there is one. -/
def rule? (g : Grammar) (rule : Nat) : Option Rule := g.rules[rule]?

/-- Whether a later rule is the same. -/
def isSuperseded (g : Grammar) (rule : Nat) : Bool := g.superseded.getD rule false

/-- The rules that were read, without the one that starts the derivations. -/
def inputRules (g : Grammar) : List Rule := g.rules.toList.drop 1

/-- All nonterminals, the fresh start symbol first. -/
def allNonterminals (g : Grammar) : List Nonterminal :=
  (List.range g.nonterminals.size).map Nonterminal.mk

/-- All terminals, the end of the input first. -/
def allTerminals (g : Grammar) : List Terminal := (List.range g.terminals.size).map Terminal.mk

/-- The numbers of the rules that replace `n`, of equal rules only the last. -/
def rulesOf (g : Grammar) (n : Nonterminal) : List Nat :=
  (List.range g.rules.size).filter fun i =>
    (g.rule? i).any (·.left = n) && !g.isSuperseded i

/-- Whether some rule replaces `n`. -/
def isDefined (g : Grammar) (n : Nonterminal) : Bool := g.rules.any (·.left = n)

/-- The nonterminals that no rule replaces. -/
def unresolved (g : Grammar) : List Nonterminal :=
  g.allNonterminals.filter fun n => !g.isDefined n

/-! ## Names -/

/-- How a symbol is called that the grammar does not have. -/
def unknownName : String := "<unknown>"

/-- The name of a terminal. -/
def terminalName (g : Grammar) (t : Terminal) : String :=
  (g.terminals.value? t.number).getD unknownName

/-- The name of a nonterminal. -/
def nonterminalName (g : Grammar) (n : Nonterminal) : String :=
  (g.nonterminals.value? n.number).getD unknownName

/-- The name of a symbol. -/
def symbolName (g : Grammar) : Symbol → String
  | .terminal t => g.terminalName t
  | .nonterminal n => g.nonterminalName n

/-- The symbol that has a name, if there is one. -/
def symbolNamed? (g : Grammar) (name : String) : Option Symbol :=
  match g.terminals.number? name with
  | some i => some (.terminal ⟨i⟩)
  | none => (g.nonterminals.number? name).map fun i => .nonterminal ⟨i⟩

/-! ## Text -/

/-- A rule as text: its head, an arrow, and the names in its body. -/
def ruleText (g : Grammar) (r : Rule) : String :=
  let names := if r.right.isEmpty then [emptyMark] else r.right.toList.map g.symbolName
  " ".intercalate (g.nonterminalName r.left :: "->" :: names)

/-- The line of a nonterminal in the report. -/
def nonterminalLine (g : Grammar) (n : Nonterminal) : String :=
  g.nonterminalName n ++ (if n = g.start then " (start)" else "") ++
    (if g.isDefined n then "" else " (unresolved)")

/-- The line of a rule in the report. -/
def ruleLine (g : Grammar) (rule : Nat) (r : Rule) : String :=
  toString rule ++ ": " ++ g.ruleText r ++ (if g.isSuperseded rule then " (duplicate)" else "")

/-- The symbols and rules as a report. -/
def text (g : Grammar) : String :=
  paragraphs [
    lines ("## terminals:" :: g.terminals.toList),
    lines ("## nonterminals:" :: g.allNonterminals.map g.nonterminalLine),
    lines ("## rules:" :: g.rules.toList.zipIdx.map fun (r, i) => g.ruleLine i r)]

end Grammar

end ShiftReduce
