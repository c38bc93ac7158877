import ShiftReduce.Proofs.Names

/-! # The numbers of a rule list

Numberings look values up by their hashes, which cannot be evaluated in a proof. But a rule list tells all
of its grammar except for the name of the fresh start symbol: the number of a symbol is its place in a
list (`Grammar.IsNumbered`), and grammars with the numbers of one rule list are the same but for names
(`Grammar.IsNumbered.sameNumbers`). So what is said about the numbers of a given rule list can be found
by evaluation of the grammar that is made from the places (`Grammar.ofDefs`). -/

namespace ShiftReduce

/-! ## Later copies -/

/-- For each element of a list whether it occurs again further on, found by comparing. -/
def laterCopies {α : Type} [BEq α] : List α → List Bool
  | [] => []
  | a :: l => l.contains a :: laterCopies l

/-- The scan with a set marks the places that a search behind each of them marks. -/
theorem occursLater_eq_laterCopies {α : Type} [BEq α] [Hashable α] [LawfulBEq α] (l : List α) :
    occursLater l = laterCopies l := by
  induction l with
  | nil => rfl
  | cons a l ih => rw [occursLater_cons, laterCopies, ih]

/-! ## Numberings of lists -/

namespace Numbering

variable {α : Type} [BEq α] [Hashable α] [LawfulBEq α]

/-- Every list without repeats is the list of some numbering. -/
theorem exists_toList {l : List α} (h : l.Nodup) : ∃ t : Numbering α, t.toList = l := by
  -- interning one value after the other lists what was not there
  have intern (l : List α) (t : Numbering α) :
      (l.foldl (fun t a => (t.intern a).2) t).toList = (t.toList ++ l).eraseDups := by
    induction l generalizing t with
    | nil =>
      rw [List.append_nil, ← t.toList_eq_eraseDups]
      rfl
    | cons a l ih =>
      rw [List.foldl_cons, ih, toList_intern_eraseDups t.toList_eq_eraseDups,
        eraseDups_eraseDups_append, List.append_assoc, List.singleton_append]
  exact ⟨_, (intern l empty).trans (eraseDups_of_nodup h)⟩

/-- The numbering that gives each value of a list its place. -/
noncomputable def ofNodup (l : List α) (h : l.Nodup) : Numbering α where
  values := l.toArray
  numbers := (exists_toList h).choose.numbers
  getElem?_numbers a i := by
    rw [(exists_toList h).choose.getElem?_numbers]
    have hlist : (exists_toList h).choose.values.toList = l := (exists_toList h).choose_spec
    rw [← Array.getElem?_toList, hlist, List.getElem?_toArray]

end Numbering

/-! ## Grammars of rule lists -/

/-- The names of the nonterminals of a rule list: the heads, and then those that only stand in
bodies. -/
def writtenNonterminals (defs : List RuleDef) : List String :=
  (defs.map (·.head) ++ defs.flatMap fun r => r.body.filter isNonterminalName).eraseDups

/-- The names of the terminals in the bodies of a rule list. -/
def writtenTerminals (defs : List RuleDef) : List String :=
  (defs.flatMap fun r => r.body.filter isTerminalName).eraseDups

/-- The end of the input comes before the terminals of a valid list. -/
theorem terminalNames_eq {defs : List RuleDef} (hvalid : ∀ r ∈ defs, r.IsValid) :
    terminalNames defs = endMark :: writtenTerminals defs := by
  refine eraseDups_cons_of_not_mem fun hmem => ?_
  obtain ⟨r, hr, hbody⟩ := List.mem_flatMap.mp hmem
  exact ((hvalid r hr).2.1 _ (List.mem_filter.mp hbody).1).2.1 rfl

/-- A grammar with rules by number, behind the one that starts the derivations. -/
noncomputable def Grammar.ofNames (terminals nonterminals : List String) (hT : terminals.Nodup)
    (hN : nonterminals.Nodup) (rules : List Rule) : Grammar where
  terminals := .ofNodup terminals hT
  nonterminals := .ofNodup nonterminals hN
  rules := (⟨.freshStart, #[.nonterminal ⟨1⟩]⟩ :: rules).toArray
  start := ⟨1⟩
  superseded := (laterCopies (⟨.freshStart, #[.nonterminal ⟨1⟩]⟩ :: rules)).toArray
  superseded_eq := by rw [occursLater_eq_laterCopies]

/-- A grammar has the numbers that a valid rule list gets, with an empty name in the place of the fresh
one. -/
structure Grammar.IsNumbered (g : Grammar) (defs : List RuleDef) : Prop where
  /-- there is a rule -/
  nonempty : defs ≠ []
  /-- no rule has a fault -/
  valid : ∀ r ∈ defs, r.IsValid
  /-- there is room for the terminals -/
  terminals_le : (terminalNames defs).length ≤ capacity + 1
  /-- there is room for the rules -/
  rules_le : defs.length ≤ capacity
  /-- each terminal has a number -/
  terminals : g.terminals.size = (terminalNames defs).length
  /-- each nonterminal has a number, after the fresh start symbol -/
  nonterminals : g.nonterminals.size = (writtenNonterminals defs).length + 1
  /-- the rules keep their order behind the one that starts the derivations -/
  rules : g.rules.toList = ⟨.freshStart, #[.nonterminal ⟨1⟩]⟩ ::
    defs.map (ruleOf (terminalNames defs) ("" :: writtenNonterminals defs))
  /-- the head of the first rule is the start symbol -/
  start : g.start = ⟨1⟩

/-- Another name for the fresh start symbol makes no difference to the places of the others. -/
theorem ruleOf_cons {fresh fresh' : String} (h : isNonterminalName fresh = false)
    (h' : isNonterminalName fresh' = false) (terminals nonterminals : List String) {r : RuleDef}
    (hr : r.IsValid) :
    ruleOf terminals (fresh :: nonterminals) r = ruleOf terminals (fresh' :: nonterminals) r := by
  -- the name in front is not that of a nonterminal, so the others are one place behind it
  have place {name : String} (hname : isNonterminalName name = true) :
      (fresh :: nonterminals).idxOf name = (fresh' :: nonterminals).idxOf name := by
    have hne : fresh ≠ name := fun heq => by rw [← heq, h] at hname; cases hname
    have hne' : fresh' ≠ name := fun heq => by rw [← heq, h'] at hname; cases hname
    rw [List.idxOf_cons_ne _ hne, List.idxOf_cons_ne _ hne']
  have hsymbol : symbolOf terminals (fresh :: nonterminals) =
      symbolOf terminals (fresh' :: nonterminals) := by
    funext name
    unfold symbolOf
    cases hclass : isNonterminalName name with
    | true => rw [if_pos rfl, if_pos rfl, place hclass]
    | false => rfl
  unfold ruleOf
  rw [place hr.1, hsymbol]

/-- A name that is not that of a nonterminal is not among those of a valid list. -/
theorem not_mem_writtenNonterminals {defs : List RuleDef} (hvalid : ∀ r ∈ defs, r.IsValid)
    {name : String} (h : isNonterminalName name = false) : name ∉ writtenNonterminals defs := by
  unfold writtenNonterminals
  rw [List.mem_eraseDups, List.mem_append]
  rintro (hmem | hmem)
  · obtain ⟨r, hr, rfl⟩ := List.mem_map.mp hmem
    rw [(hvalid r hr).1] at h
    cases h
  · obtain ⟨r, -, hbody⟩ := List.mem_flatMap.mp hmem
    rw [(List.mem_filter.mp hbody).2] at h
    cases h

/-- **The grammar of a rule list, but for the name of the fresh start symbol.** -/
noncomputable def Grammar.ofDefs (defs : List RuleDef) : Grammar :=
  .ofNames (terminalNames defs) ("" :: writtenNonterminals defs).eraseDups (nodup_eraseDups _)
    (nodup_eraseDups _) (defs.map (ruleOf (terminalNames defs) ("" :: writtenNonterminals defs)))

/-- It has the numbers of the list. -/
theorem Grammar.isNumbered_ofDefs {defs : List RuleDef} (nonempty : defs ≠ [])
    (valid : ∀ r ∈ defs, r.IsValid) (hterminals : (terminalNames defs).length ≤ capacity + 1)
    (hrules : defs.length ≤ capacity) : (ofDefs defs).IsNumbered defs where
  nonempty := nonempty
  valid := valid
  terminals_le := hterminals
  rules_le := hrules
  terminals := List.size_toArray
  nonterminals := by
    have hfresh : "" ∉ writtenNonterminals defs := not_mem_writtenNonterminals valid rfl
    have hnodup : (writtenNonterminals defs).Nodup := nodup_eraseDups _
    show (("" :: writtenNonterminals defs).eraseDups.toArray).size = _
    rw [List.size_toArray, eraseDups_of_nodup (List.nodup_cons.mpr ⟨hfresh, hnodup⟩),
      List.length_cons]
  rules := rfl
  start := rfl

namespace Grammar.IsAugmentation

variable {g : Grammar} {defs : List RuleDef}

/-- **The fresh start comes first among the nonterminals**, the written ones behind it. -/
theorem nonterminalNames_eq (h : g.IsAugmentation defs) :
    nonterminalNames defs = startName defs :: writtenNonterminals defs := by
  have hfresh := not_mem_writtenNonterminals h.valid h.isNonterminalName_startName
  unfold writtenNonterminals at hfresh ⊢
  rw [List.mem_eraseDups] at hfresh
  unfold nonterminalNames
  rw [List.cons_append, eraseDups_cons_of_not_mem hfresh]

end Grammar.IsAugmentation

/-- **An augmented grammar has the numbers of its rule list.** -/
theorem Grammar.isNumbered_of_augment {g : Grammar} {defs : List RuleDef}
    (h : Grammar.augment defs = .ok g) : g.IsNumbered defs where
  nonempty := (isAugmentation_of_augment h).nonempty
  valid := (isAugmentation_of_augment h).valid
  terminals_le := (length_le_of_augment h).1
  rules_le := (length_le_of_augment h).2
  terminals := by rw [← Numbering.length_toList, (isAugmentation_of_augment h).terminals]
  nonterminals := by
    have haug := isAugmentation_of_augment h
    rw [← Numbering.length_toList, haug.nonterminals, haug.nonterminalNames_eq, List.length_cons]
  rules := by
    have haug := isAugmentation_of_augment h
    rw [haug.rules]
    unfold augmentedRules
    rw [haug.nonterminalNames_eq]
    refine congrArg (_ :: ·) (List.map_congr_left fun r hr => ?_)
    exact ruleOf_cons haug.isNonterminalName_startName rfl _ _ (haug.valid r hr)
  start := (isAugmentation_of_augment h).start

/-- The rules are the one that starts the derivations and those of the list. -/
theorem Grammar.IsNumbered.mem_rules {g : Grammar} {defs : List RuleDef} (h : g.IsNumbered defs)
    {r : Rule} : r ∈ g.rules.toList ↔ r = ⟨.freshStart, #[.nonterminal ⟨1⟩]⟩ ∨
      ∃ d ∈ defs, ruleOf (terminalNames defs) ("" :: writtenNonterminals defs) d = r := by
  rw [h.rules, List.mem_cons, List.mem_map]

/-- The number of a rule is one more than its place in the list. -/
theorem Grammar.IsNumbered.rule?_succ {g : Grammar} {defs : List RuleDef} (h : g.IsNumbered defs)
    (k : Nat) : g.rule? (k + 1) =
      defs[k]?.map (ruleOf (terminalNames defs) ("" :: writtenNonterminals defs)) := by
  unfold Grammar.rule?
  rw [← Array.getElem?_toList, h.rules, List.getElem?_cons_succ, List.getElem?_map]

/-- The numbers of a rule list are all that there is to a grammar but names. -/
theorem Grammar.IsNumbered.sameNumbers {g g' : Grammar} {defs : List RuleDef}
    (h : g.IsNumbered defs) (h' : g'.IsNumbered defs) : g.SameNumbers g' where
  rules := Array.toList_inj.mp (h.rules.trans h'.rules.symm)
  start := h.start.trans h'.start.symm
  terminals := h.terminals.trans h'.terminals.symm
  nonterminals := h.nonterminals.trans h'.nonterminals.symm

/-- **An augmented grammar is that of its rule list but for names.** -/
theorem Grammar.sameNumbers_ofDefs {g : Grammar} {defs : List RuleDef}
    (h : Grammar.augment defs = .ok g) : g.SameNumbers (.ofDefs defs) := by
  have hg := isNumbered_of_augment h
  exact hg.sameNumbers (isNumbered_ofDefs hg.nonempty hg.valid hg.terminals_le hg.rules_le)

end ShiftReduce
