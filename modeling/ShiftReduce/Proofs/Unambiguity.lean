import ShiftReduce.Proofs.Completeness

/-! # Consistent tables are unambiguous

Two trees over one word make the parser run twice from the same configuration, and the runs reduce the
same rules. The rules of a tree, listed from the latest, tell the tree: each rule says how many trees
follow and what their roots are (`ParseTree.eq_of_rules_append`). -/

namespace ShiftReduce

namespace ParseTree

variable {g : Grammar}

/-- What tells each of some trees tells them all: they are read from right to left. -/
theorem eq_of_forestRules_append {trees others : List ParseTree} {x y : List Rule}
    (htrees : ∀ tree ∈ trees, ∀ other, other.IsValid g → tree.root = other.root →
      ∀ x y, tree.rules ++ x = other.rules ++ y → tree = other ∧ x = y)
    (hothers : ∀ other ∈ others, other.IsValid g) (hroots : trees.map root = others.map root)
    (h : forestRules trees ++ x = forestRules others ++ y) : trees = others ∧ x = y := by
  induction trees generalizing others x y with
  | nil =>
    obtain rfl : others = [] := List.map_eq_nil_iff.mp hroots.symm
    exact ⟨rfl, h⟩
  | cons tree trees ih =>
    cases others with
    | nil => cases hroots
    | cons other others =>
      obtain ⟨hroot, hroots⟩ := List.cons.inj hroots
      rw [forestRules, forestRules, List.append_assoc, List.append_assoc] at h
      -- the rules of the last trees come first
      obtain ⟨rfl, hrest⟩ := ih (fun tree htree => htrees tree (List.mem_cons_of_mem _ htree))
        (fun other hother => hothers other (List.mem_cons_of_mem _ hother)) hroots h
      obtain ⟨rfl, hxy⟩ := htrees tree (List.mem_cons_self ..) other
        (hothers other (List.mem_cons_self ..)) hroot x y hrest
      exact ⟨rfl, hxy⟩

/-- **The rules of a tree tell the tree,** also when other rules come behind them. -/
theorem eq_of_rules_append {a b : ParseTree} (ha : a.IsValid g) (hb : b.IsValid g)
    (hroot : a.root = b.root) {x y : List Rule} (h : a.rules ++ x = b.rules ++ y) :
    a = b ∧ x = y := by
  induction a using induct generalizing b x y with
  | leaf t =>
    cases b with
    | leaf t' =>
      obtain rfl : t = t' := Symbol.terminal.inj hroot
      exact ⟨rfl, h⟩
    | node rule children => cases hroot
  | node rule children ih =>
    cases b with
    | leaf t => cases hroot
    | node rule' children' =>
      rw [rules, rules, List.cons_append, List.cons_append] at h
      -- the first rule is that of the root, and it tells the roots of the children
      obtain ⟨rfl, hrest⟩ := List.cons.inj h
      obtain ⟨-, hbody, hchildren⟩ := isValid_node.mp ha
      obtain ⟨-, hbody', hchildren'⟩ := isValid_node.mp hb
      obtain ⟨rfl, hxy⟩ := eq_of_forestRules_append
        (fun tree htree other hother hroot x y => ih tree htree (hchildren tree htree) hother hroot)
        hchildren' (hbody.trans hbody'.symm) hrest
      exact ⟨rfl, hxy⟩

/-- Valid trees with the same root and the same rules are the same. -/
theorem eq_of_rules {a b : ParseTree} (ha : a.IsValid g) (hb : b.IsValid g)
    (hroot : a.root = b.root) (h : a.rules = b.rules) : a = b :=
  (eq_of_rules_append ha hb hroot (congrArg (· ++ []) h)).1

end ParseTree

/-- **No conflict means unambiguous.** With a consistent table every word has at most one parse tree
rooted in the start symbol; copies of a rule count as one rule. -/
theorem Tables.unambiguous_of_isConsistent {defs : List RuleDef} {t : Tables}
    (h : Tables.ofRules defs = .ok t) (hc : t.table.isConsistent = true) {a b : ParseTree}
    (ha : a.IsValid t.grammar) (hb : b.IsValid t.grammar)
    (hrootA : a.root = .nonterminal t.grammar.start)
    (hrootB : b.root = .nonterminal t.grammar.start) (hword : a.word = b.word) : a = b := by
  obtain ⟨g, hg, rfl⟩ := ofRules_eq_ok.mp h
  have wf := Grammar.wellFormed_of_augment hg
  obtain ⟨rules, haccepts, hrules⟩ := accepts_of_tree wf hc ha hrootA
  obtain ⟨more, haccepts', hmore⟩ := accepts_of_tree wf hc hb hrootB
  -- the parser cannot tell the two apart, so it reduces the rules of both
  rw [← hword] at haccepts'
  obtain rfl : rules = more := rules_unique haccepts haccepts'
  have hsame : a.rules.map some = b.rules.map some := hrules.symm.trans hmore
  exact ParseTree.eq_of_rules ha hb (hrootA.trans hrootB.symm)
    (List.map_injective_iff.mpr (Option.some_injective _) hsame)

/-- Two trees over the word of one terminal are the same. -/
theorem Tables.unambiguous_starRules : ∃ t, Tables.ofRules starRules = .ok t ∧
    t.table.isConsistent = true ∧ starTree.IsValid t.grammar ∧
    starTree.root = .nonterminal t.grammar.start ∧
    ∀ tree : ParseTree, tree.IsValid t.grammar → tree.root = .nonterminal t.grammar.start →
      tree.word = starTree.word → tree = starTree := by
  obtain ⟨t, ht, hsame, hc⟩ := exists_starTables
  have hvalid := isValid_starTree hsame
  have hroot : starTree.root = .nonterminal t.grammar.start := by
    rw [hsame.start]
    rfl
  exact ⟨t, ht, hc, hvalid, hroot, fun tree htree hroot' hword =>
    Tables.unambiguous_of_isConsistent ht hc htree hvalid hroot' hroot hword⟩

end ShiftReduce
