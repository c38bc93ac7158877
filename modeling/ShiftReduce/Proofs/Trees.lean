import ShiftReduce.Derivation
import ShiftReduce.ParseTree
import Mathlib.Data.List.Basic

/-! # Parse trees and derivations

A valid tree derives its word (`ParseTree.derives_word`), and whatever derives a word has a forest over
it: the last step of a derivation is taken back by putting a node on the trees of a body
(`ParseTree.exists_forest`). The rules of a tree are listed in the order in which a parser uses them,
the latest first (`ParseTree.rules`). -/

namespace ShiftReduce

namespace ParseTree

/-- Induction over trees, in which a node may use the claim for each of its children. -/
@[elab_as_elim]
theorem induct {p : ParseTree → Prop} (leaf : ∀ t, p (.leaf t))
    (node : ∀ rule children, (∀ tree ∈ children, p tree) → p (.node rule children)) :
    ∀ tree, p tree := by
  intro tree
  refine ParseTree.rec (motive_1 := p) (motive_2 := fun trees => ∀ tree ∈ trees, p tree)
    leaf node ?_ ?_ tree
  · intro tree htree
    exact absurd htree List.not_mem_nil
  · intro first rest hfirst hrest tree htree
    rcases List.mem_cons.mp htree with rfl | htree
    · exact hfirst
    · exact hrest tree htree

/-- A valid node has a rule that was read and valid children with the symbols of its body. -/
theorem isValid_node {g : Grammar} {rule : Rule} {children : List ParseTree} :
    (node rule children).IsValid g ↔ rule ∈ g.inputRules ∧
      children.map root = rule.right.toList ∧ ∀ tree ∈ children, tree.IsValid g := by
  rw [← forestIsValid_iff, IsValid]

/-! ## What trees derive -/

/-- Trees derive side by side what each of them derives. -/
theorem derives_forestWord {g : Grammar} {trees : List ParseTree}
    (h : ∀ tree ∈ trees, Derives g.Produces [tree.root] (tree.word.map .terminal)) :
    Derives g.Produces (trees.map root) ((forestWord trees).map .terminal) := by
  induction trees with
  | nil => exact .refl _
  | cons tree rest ih =>
    have hfirst := h tree (List.mem_cons_self ..)
    have hrest := ih fun tree htree => h tree (List.mem_cons_of_mem _ htree)
    rw [List.map_cons, forestWord, List.map_append]
    exact hfirst.append hrest

/-- **A valid tree derives its word.** -/
theorem derives_word {g : Grammar} {tree : ParseTree} (h : tree.IsValid g) :
    Derives g.Produces [tree.root] (tree.word.map .terminal) := by
  induction tree using induct with
  | leaf t => exact .refl _
  | node rule children ih =>
    -- the rule of the root comes first, and then the children derive their words
    obtain ⟨hrule, hroots, hchildren⟩ := isValid_node.mp h
    have hword := derives_forestWord fun tree htree => ih tree htree (hchildren tree htree)
    rw [hroots] at hword
    rw [word]
    exact (Derives.of_production ⟨rule, hrule, rfl, rfl⟩).trans hword

/-! ## Trees of derivations -/

/-- Some valid trees have the symbols of a form at their roots and spell a word. -/
def Spells (g : Grammar) (form : List Symbol) (word : List Terminal) : Prop :=
  ∃ trees : List ParseTree, (∀ tree ∈ trees, tree.IsValid g) ∧ trees.map root = form ∧
    forestWord trees = word

/-- The terminals of a word are leaves. -/
theorem spells_word (g : Grammar) (word : List Terminal) : Spells g (word.map .terminal) word := by
  refine ⟨word.map .leaf, ?_, ?_, ?_⟩
  · intro tree htree
    obtain ⟨t, -, rfl⟩ := List.mem_map.mp htree
    simp [IsValid]
  · rw [List.map_map]
    rfl
  · induction word with
    | nil => rfl
    | cons t word ih =>
      rw [List.map_cons, forestWord, ih]
      rfl

/-- A step is taken back by a node on the trees of the body. -/
theorem Spells.of_replaces {g : Grammar} {a b : List Symbol} {word : List Terminal}
    (hstep : Replaces g.Produces a b) (h : Spells g b word) : Spells g a word := by
  obtain ⟨before, after, rule, hrule, rfl, hbody⟩ := hstep
  obtain ⟨trees, hvalid, hroots, rfl⟩ := h
  -- the trees of the body stand between those of the unchanged parts
  obtain ⟨front, trees₃, rfl, hfront, hafter⟩ := List.map_eq_append_iff.mp hroots
  obtain ⟨trees₁, trees₂, rfl, hbefore, hinner⟩ := List.map_eq_append_iff.mp hfront
  refine ⟨trees₁ ++ .node rule trees₂ :: trees₃, ?_, ?_, ?_⟩
  · intro tree htree
    rcases List.mem_append.mp htree with htree | htree
    · exact hvalid tree (by simp [htree])
    · rcases List.mem_cons.mp htree with rfl | htree
      · refine isValid_node.mpr ⟨hrule, hinner.trans hbody.symm, fun tree htree => ?_⟩
        exact hvalid tree (by simp [htree])
      · exact hvalid tree (by simp [htree])
  · rw [List.map_append, List.map_cons, hbefore, hafter]
    rfl
  · simp [forestWord_eq, word]

/-- **What derives a word has trees over it.** -/
theorem exists_forest {g : Grammar} {form : List Symbol} {w : List Terminal}
    (h : Derives g.Produces form (w.map .terminal)) : Spells g form w := by
  -- the steps are taken back one by one, the last one first
  have back {a b : List Symbol} (hab : Derives g.Produces a b) (hb : Spells g b w) :
      Spells g a w := by
    induction hab with
    | refl => exact hb
    | tail _ hstep ih => exact ih (hb.of_replaces hstep)
  exact back h (spells_word g w)

/-- What derives a word from one symbol has a tree over it. -/
theorem exists_tree {g : Grammar} {x : Symbol} {w : List Terminal}
    (h : Derives g.Produces [x] (w.map .terminal)) :
    ∃ tree : ParseTree, tree.IsValid g ∧ tree.root = x ∧ tree.word = w := by
  obtain ⟨trees, hvalid, hroots, hword⟩ := exists_forest h
  obtain ⟨tree, rfl, hroot⟩ := List.map_eq_singleton_iff.mp hroots
  refine ⟨tree, hvalid tree (List.mem_singleton_self _), hroot, ?_⟩
  rw [← hword, forestWord, forestWord, List.append_nil]

/-! ## The rules of a tree -/

mutual

/-- The rules of a tree in the order of a parser, the latest first: the rule of the root, and then
those of the children from right to left. -/
def rules : ParseTree → List Rule
  | .leaf _ => []
  | .node rule children => rule :: forestRules children

/-- The rules of some trees, from right to left. -/
def forestRules : List ParseTree → List Rule
  | [] => []
  | tree :: rest => forestRules rest ++ rules tree

end

end ParseTree

end ShiftReduce
