import ShiftReduce.Grammar
import ShiftReduce.RuleDef

/-! # From a rule list to a grammar

A rule list without faults is numbered in one pass: all heads first, so that the nonterminals with rules
come before the others, then rule by rule the symbols of the body and the rule itself. -/

namespace ShiftReduce

/-! ## The fresh start symbol -/

/-- A name with `k` apostrophes behind it. -/
def primed (name : String) (k : Nat) : String := name ++ String.join (List.replicate k "'")

/-- All names in a rule list. -/
def namesOf (defs : List RuleDef) : Std.HashSet String :=
  defs.foldl (fun names d => names.insertMany (d.head :: d.body)) ∅

/-- The first name with at least one apostrophe behind it that is not taken. Among one more candidates
than there are names one is free. -/
def freshName (taken : Std.HashSet String) (name : String) : String :=
  let free := (List.range (taken.size + 1)).find? fun k => !taken.contains (primed name (k + 1))
  primed name (free.getD taken.size + 1)

/-! ## Numbering symbols and rules -/

/-- A grammar whose rules are still being read. -/
structure Draft where
  /-- the terminals met so far -/
  terminals : Numbering String
  /-- the nonterminals met so far -/
  nonterminals : Numbering String
  /-- the rules read so far, after the one that starts the derivations -/
  rules : Array Rule

namespace Draft

/-- No rule is read yet: the reserved symbols and the heads have their numbers. -/
def ofHeads (fresh : String) (heads : List String) : Draft where
  terminals := (Numbering.empty.intern endMark).2
  nonterminals := heads.foldl (fun t h => (t.intern h).2) (Numbering.empty.intern fresh).2
  rules := #[⟨.freshStart, #[.nonterminal ⟨1⟩]⟩]

/-- The symbol with a name, numbered if it is new. -/
def symbol (d : Draft) (name : String) : Except GrammarError (Symbol × Draft) :=
  let ⟨terminals, nonterminals, rules⟩ := d
  if isNonterminalName name then
    let (i, nonterminals) := nonterminals.intern name
    .ok (.nonterminal ⟨i⟩, ⟨terminals, nonterminals, rules⟩)
  else
    let (i, terminals) := terminals.intern name
    if i ≤ capacity then .ok (.terminal ⟨i⟩, ⟨terminals, nonterminals, rules⟩)
    else .error (.tooMany .terminals)

/-- The symbols with the names in a body, behind those read before. -/
def symbols (d : Draft) (before : Array Symbol) :
    List String → Except GrammarError (Array Symbol × Draft)
  | [] => .ok (before, d)
  | name :: rest =>
    match d.symbol name with
    | .ok (s, d) => d.symbols (before.push s) rest
    | .error e => .error e

/-- Reads one more rule. -/
def addRule (d : Draft) (r : RuleDef) : Except GrammarError Draft :=
  match d.symbols #[] r.body with
  | .error e => .error e
  | .ok (right, ⟨terminals, nonterminals, rules⟩) =>
    let (left, nonterminals) := nonterminals.intern r.head
    if rules.size ≤ capacity then
      .ok ⟨terminals, nonterminals, rules.push ⟨⟨left⟩, right⟩⟩
    else .error (.tooMany .rules)

/-- Reads all rules of a list. -/
def addRules (d : Draft) : List RuleDef → Except GrammarError Draft
  | [] => .ok d
  | r :: rest =>
    match d.addRule r with
    | .ok d => d.addRules rest
    | .error e => .error e

end Draft

/-- The grammar of a rule list; the head of the first rule is the start symbol. -/
def Grammar.augment (defs : List RuleDef) : Except GrammarError Grammar :=
  match defs with
  | [] => .error .noRules
  | first :: _ =>
    match firstFault? 0 defs with
    | some e => .error e
    | none =>
      let draft := Draft.ofHeads (freshName (namesOf defs) first.head) (defs.map (·.head))
      match draft.addRules defs with
      | .error e => .error e
      | .ok d =>
        .ok { terminals := d.terminals, nonterminals := d.nonterminals, rules := d.rules,
              start := ⟨1⟩ }

end ShiftReduce
