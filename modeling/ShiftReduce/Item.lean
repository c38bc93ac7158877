import ShiftReduce.Grammar
import ShiftReduce.RuleDef

/-! # LR(0) items

An item is a rule with a marker in its body: what stands before the marker has been read. Items are
ordered by rule and then by marker. -/

namespace ShiftReduce

/-- A rule number with a marker position. -/
structure Item where
  /-- the number of the rule -/
  rule : Nat
  /-- how many symbols of the body stand before the marker -/
  marker : Nat
  deriving DecidableEq, Hashable

namespace Item

/-- The item from which everything starts. -/
def start : Item := ⟨0, 0⟩

/-! ## Order -/

/-- Items are compared by rule and then by marker. -/
protected def compare (a b : Item) : Ordering :=
  (compare a.rule b.rule).then (compare a.marker b.marker)

instance : LT Item := ⟨fun a b => a.rule < b.rule ∨ a.rule = b.rule ∧ a.marker < b.marker⟩

instance : LE Item := ⟨fun a b => a.rule < b.rule ∨ a.rule = b.rule ∧ a.marker ≤ b.marker⟩

/-- Strict order by the rule, then by the place of the marker. -/
theorem lt_def {a b : Item} :
    a < b ↔ a.rule < b.rule ∨ a.rule = b.rule ∧ a.marker < b.marker := Iff.rfl

/-- Order by the rule, then by the place of the marker. -/
theorem le_def {a b : Item} :
    a ≤ b ↔ a.rule < b.rule ∨ a.rule = b.rule ∧ a.marker ≤ b.marker := Iff.rfl

instance (a b : Item) : Decidable (a < b) := decidable_of_iff _ lt_def.symm

instance (a b : Item) : Decidable (a ≤ b) := decidable_of_iff _ le_def.symm

/-- An item is its rule and the place of its marker. -/
theorem ext_iff {a b : Item} : a = b ↔ a.rule = b.rule ∧ a.marker = b.marker := by
  cases a; cases b; simp

/-- The order of items is transitive. -/
theorem le_trans {a b c : Item} (hab : a ≤ b) (hbc : b ≤ c) : a ≤ c := by
  rw [le_def] at *; omega

/-- Any two items can be compared. -/
theorem le_total (a b : Item) : a ≤ b ∨ b ≤ a := by
  rw [le_def, le_def]; omega

/-- An item that comes no later than another one comes before it. -/
theorem lt_of_le_of_ne {a b : Item} (h : a ≤ b) (hne : a ≠ b) : a < b := by
  rw [le_def] at h; rw [ne_eq, ext_iff] at hne; rw [lt_def]; omega

/-- A strict step followed by a weak one is strict. -/
theorem lt_of_lt_of_le {a b c : Item} (hab : a < b) (hbc : b ≤ c) : a < c := by
  rw [lt_def] at *; rw [le_def] at hbc; omega

/-- The strict order lies within the weak one. -/
theorem le_of_lt {a b : Item} (h : a < b) : a ≤ b := by
  rw [lt_def] at h; rw [le_def]; omega

/-- No item comes before itself. -/
theorem lt_irrefl (a : Item) : ¬ a < a := by
  rw [lt_def]; omega

/-- The comparison follows the order. -/
theorem compare_eq_gt {a b : Item} : a.compare b = .gt ↔ b < a := by
  rw [Item.compare, Ordering.then_eq_gt, Nat.compare_eq_gt, Nat.compare_eq_eq, Nat.compare_eq_gt,
    lt_def, eq_comm (a := a.rule)]

/-- The comparison finds two items equal only when they are. -/
theorem compare_eq_eq {a b : Item} : a.compare b = .eq ↔ a = b := by
  rw [Item.compare, Ordering.then_eq_eq, Nat.compare_eq_eq, Nat.compare_eq_eq, ext_iff]

/-- The order as a test. -/
def ble (a b : Item) : Bool := decide (a ≤ b)

/-- The test the sorting uses is transitive. -/
theorem ble_trans (a b c : Item) (hab : ble a b = true) (hbc : ble b c = true) :
    ble a c = true :=
  decide_eq_true (le_trans (of_decide_eq_true hab) (of_decide_eq_true hbc))

/-- The test the sorting uses compares any two items. -/
theorem ble_total (a b : Item) : (ble a b || ble b a) = true := by
  simpa [ble] using le_total a b

/-! ## The symbol behind the marker -/

/-- The symbol behind the marker, if the rule exists and the marker is not at the end. -/
def next? (g : Grammar) (i : Item) : Option Symbol := (g.rule? i.rule).bind (·.right[i.marker]?)

/-- The item with the marker one symbol further on. -/
def advance (i : Item) : Item := ⟨i.rule, i.marker + 1⟩

/-- The item with the marker one symbol further on, if there is room for such a marker. -/
def advance? (i : Item) : Option Item := if i.marker < capacity then some i.advance else none

/-- Whether the rule exists and nothing stands behind the marker. -/
def isComplete (g : Grammar) (i : Item) : Bool := (g.rule? i.rule).any (·.right.size ≤ i.marker)

/-- Whether the grammar has the rule. -/
def hasRule (g : Grammar) (i : Item) : Bool := i.rule < g.rules.size

/-! ## Text -/

/-- A rule with a dot at the marker; at or beyond the end of the body the dot comes last. -/
def ruleText (g : Grammar) (r : Rule) (marker : Nat) : String :=
  let names := r.right.toList.map g.symbolName
  " ".intercalate (g.nonterminalName r.left :: "->" :: names.take marker ++ "." :: names.drop marker)

/-- An item as text, if the rule exists. -/
def text? (g : Grammar) (i : Item) : Option String :=
  (g.rule? i.rule).map fun r => ruleText g r i.marker

end Item

end ShiftReduce
