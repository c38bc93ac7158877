import ShiftReduce.ItemSet
import ShiftReduce.Saturate
import ShiftReduce.SymbolSet

/-! # Closure and goto

When an item has a nonterminal behind its marker, the rules of that nonterminal may begin there too, and
so may those of the nonterminals with which these rules begin. The closure of a set of items adds all
of these with the marker in front. -/

namespace ShiftReduce

/-- The nonterminal with which the body of a rule begins, if it begins with one. -/
def Rule.leftCorner? (r : Rule) : Option Nonterminal := r.right[0]?.bind Symbol.nonterminal?

namespace Grammar

/-- Adds the nonterminals with which the bodies of the rules of members begin, rule by rule. -/
def addLeftCorners (g : Grammar) (s : SymbolSet Nonterminal) : SymbolSet Nonterminal :=
  g.rules.foldl (fun s r =>
    match r.leftCorner? with
    | some n => if r.left ∈ s then s.insert n else s
    | none => s) s

/-- The nonterminals that can begin what members derive, members included. -/
def leftCorners (g : Grammar) (s : SymbolSet Nonterminal) : SymbolSet Nonterminal :=
  saturate g.addLeftCorners (g.nonterminals.size + 1) s

/-- Whether the rule with a given number replaces a member, and no later rule is the same. -/
def isRuleOf (g : Grammar) (s : SymbolSet Nonterminal) (rule : Nat) : Bool :=
  (g.rule? rule).any (fun r => decide (r.left ∈ s)) && !g.isSuperseded rule

/-- The rules of members with the marker in front. -/
def initialItems (g : Grammar) (s : SymbolSet Nonterminal) : ItemSet where
  items := ((List.range g.rules.size).filter (g.isRuleOf s)).map (⟨·, 0⟩)
  sorted := by
    refine List.Pairwise.map _ (fun a b h => ?_) (List.pairwise_lt_range.filter _)
    exact Or.inl h

end Grammar

namespace ItemSet

/-- The nonterminals behind the markers. -/
def expectedNonterminals (g : Grammar) (s : ItemSet) : SymbolSet Nonterminal :=
  .ofList (s.items.filterMap fun i => (i.next? g).bind (·.nonterminal?))

/-- The set with all items that may begin where one of its own stands. -/
def closure (g : Grammar) (s : ItemSet) : ItemSet :=
  s ∪ g.initialItems (g.leftCorners (s.expectedNonterminals g))

/-- The symbols behind the markers, in the order in which they first occur. -/
def expected (g : Grammar) (s : ItemSet) : List Symbol := (s.items.filterMap (·.next? g)).eraseDups

/-- The closure of the items that expect a symbol, after that symbol. -/
def goto (g : Grammar) (s : ItemSet) (symbol : Symbol) : ItemSet :=
  closure g (.ofList ((s.items.filter fun i => decide (i.next? g = some symbol)).map Item.advance))

/-- The rules of the complete items, in the order of the items. -/
def completeRules (g : Grammar) (s : ItemSet) : List Nat :=
  (s.items.filter (·.isComplete g)).map (·.rule)

/-! ## Items of foreign rules

An item whose rule the grammar does not have can be held in a set, but not be expanded. -/

/-- Whether the grammar has the rules of all items. -/
def hasRules (g : Grammar) (s : ItemSet) : Bool := s.items.all (·.hasRule g)

/-- The closure, if the grammar has the rules of all items. -/
def closure? (g : Grammar) (s : ItemSet) : Option ItemSet :=
  if s.hasRules g then some (s.closure g) else none

/-- The goto set, if the grammar has the rules of all items. -/
def goto? (g : Grammar) (s : ItemSet) (symbol : Symbol) : Option ItemSet :=
  if s.hasRules g then some (s.goto g symbol) else none

end ItemSet

end ShiftReduce
