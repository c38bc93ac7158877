import ShiftReduce.Grammar

/-! # Parse trees

A tree shows which rule was used where. Rules are given by head and body, so copies of a rule make no
difference. -/

namespace ShiftReduce

/-- A tree of rules over terminals. -/
inductive ParseTree where
  /-- a terminal of the word -/
  | leaf (t : Terminal)
  /-- a rule with a tree for each symbol of its body -/
  | node (rule : Rule) (children : List ParseTree)

namespace ParseTree

/-- The symbol at the root. -/
def root : ParseTree → Symbol
  | .leaf t => .terminal t
  | .node rule _ => .nonterminal rule.left

mutual

/-- The word that the leaves spell. -/
def word : ParseTree → List Terminal
  | .leaf t => [t]
  | .node _ children => forestWord children

/-- The word that the leaves of some trees spell one after the other. -/
def forestWord : List ParseTree → List Terminal
  | [] => []
  | tree :: rest => word tree ++ forestWord rest

end

mutual

/-- Whether every node uses a rule that was read, on children with the symbols of its body. -/
def IsValid (g : Grammar) : ParseTree → Prop
  | .leaf _ => True
  | .node rule children =>
    rule ∈ g.inputRules ∧ children.map root = rule.right.toList ∧ ForestIsValid g children

/-- Whether all of some trees are valid. -/
def ForestIsValid (g : Grammar) : List ParseTree → Prop
  | [] => True
  | tree :: rest => IsValid g tree ∧ ForestIsValid g rest

end

/-- The word of a forest is the words of its trees, one behind the other. -/
theorem forestWord_eq (trees : List ParseTree) : forestWord trees = trees.flatMap word := by
  induction trees with
  | nil => rfl
  | cons tree rest ih => simp [forestWord, ih]

/-- A forest is valid when each of its trees is. -/
theorem forestIsValid_iff {g : Grammar} {trees : List ParseTree} :
    ForestIsValid g trees ↔ ∀ tree ∈ trees, tree.IsValid g := by
  induction trees with
  | nil => simp [ForestIsValid]
  | cons tree rest ih => simp [ForestIsValid, ih]

end ParseTree

end ShiftReduce
