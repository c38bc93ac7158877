import ShiftReduce.Proofs.FirstFaults
import ShiftReduce.Proofs.RuleOrder
import ShiftReduce.Proofs.SheetColumns

/-! # Numbering loses nothing

The numbers of an augmented grammar are told by the written rules alone: symbols are numbered in the
order of their first appearance (`IsListing`), heads before nonterminals that only stand in bodies, and
rules in their order. Names in the place of numbers give the written rules back, and the fresh start
symbol is none of what is written (`Grammar.IsLossless`). -/

namespace ShiftReduce

/-! ## First appearances -/

section IsListing

variable {α : Type} [BEq α] [LawfulBEq α]

/-- A list has those elements of another list that meet a condition, each once, in the order in which
they first come. -/
structure IsListing (p : α → Prop) (all l : List α) : Prop where
  /-- it has the elements that meet the condition -/
  mem_iff : ∀ a, a ∈ l ↔ a ∈ all ∧ p a
  /-- what comes first is listed first -/
  ordered : l.Pairwise fun a b => all.idxOf a < all.idxOf b

/-- **First copies are listed by first appearance.** -/
theorem isListing_eraseDups_filter (p : α → Bool) (all : List α) :
    IsListing (fun a => p a = true) all (all.filter p).eraseDups where
  mem_iff a := by rw [List.mem_eraseDups, List.mem_filter]
  ordered := by
    induction all using List.reverseRecOn with
    | nil => exact List.Pairwise.nil
    | append_singleton all a ih =>
      -- what came before keeps its place when one more element comes
      have hplace {b : α} (hb : b ∈ (all.filter p).eraseDups) : b ∈ all :=
        List.mem_of_mem_filter (List.mem_eraseDups.mp hb)
      have hold : (all.filter p).eraseDups.Pairwise fun b c =>
          (all ++ [a]).idxOf b < (all ++ [a]).idxOf c := by
        refine ih.imp_of_mem fun hb hc hlt => ?_
        rwa [List.idxOf_append_of_mem (hplace hb), List.idxOf_append_of_mem (hplace hc)]
      rw [List.filter_append]
      by_cases hp : p a = true
      · rw [List.filter_cons_of_pos hp, List.filter_nil, eraseDups_concat]
        by_cases ha : a ∈ all.filter p
        · rwa [if_pos ha]
        · have hnew : a ∉ all := fun h => ha (List.mem_filter.mpr ⟨h, hp⟩)
          rw [if_neg ha, List.pairwise_append]
          refine ⟨hold, List.pairwise_singleton .., fun b hb c hc => ?_⟩
          rw [List.mem_singleton.mp hc, List.idxOf_append_of_mem (hplace hb),
            List.idxOf_append_of_notMem hnew, List.idxOf_cons_self, Nat.add_zero]
          exact List.idxOf_lt_length_of_mem (hplace hb)
      · rwa [List.filter_cons_of_neg hp, List.filter_nil, List.append_nil]

omit [LawfulBEq α] in
/-- A list stays one when the condition says the same in other words. -/
theorem IsListing.congr {p q : α → Prop} {all l : List α} (h : IsListing p all l)
    (hpq : ∀ a, p a ↔ q a) : IsListing q all l where
  mem_iff a := (h.mem_iff a).trans (and_congr_right' (hpq a))
  ordered := h.ordered

end IsListing

/-- The numbers above one of them are those behind it. -/
theorem filter_lt_range (m n : Nat) :
    (List.range (m + 1 + n)).filter (fun i => decide (m < i)) = List.range' (m + 1) n := by
  have hbelow : (List.range' 0 (m + 1)).filter (fun i => decide (m < i)) = [] := by
    refine List.filter_eq_nil_iff.mpr fun i hi => ?_
    have hlt := (List.mem_range'_1.mp hi).2
    rw [decide_eq_true_eq]
    omega
  have habove : (List.range' (m + 1) n).filter (fun i => decide (m < i)) = List.range' (m + 1) n := by
    refine List.filter_eq_self.mpr fun i hi => ?_
    have hle := (List.mem_range'_1.mp hi).1
    rw [decide_eq_true_eq]
    omega
  rw [List.range_eq_range', ← List.range'_append_1, List.filter_append, hbelow, Nat.zero_add, habove,
    List.nil_append]

/-! ## The names of a rule list -/

/-- All symbols in bodies, as they are written one after the other. -/
def bodySymbols (defs : List RuleDef) : List String := defs.flatMap (·.body)

/-- The heads, without repetitions. -/
def headNames (defs : List RuleDef) : List String := (defs.map (·.head)).eraseDups

/-- The nonterminals that only stand in bodies, without repetitions. -/
def referencedNames (defs : List RuleDef) : List String :=
  ((bodySymbols defs).filter fun s => isNonterminalName s && s ∉ defs.map (·.head)).eraseDups

/-- Every head is among the heads. -/
theorem head_mem_headNames {defs : List RuleDef} {d : RuleDef} (hd : d ∈ defs) :
    d.head ∈ headNames defs :=
  List.mem_eraseDups.mpr (List.mem_map_of_mem hd)

/-- The terminals are listed as the bodies write them. -/
theorem isListing_writtenTerminals (defs : List RuleDef) :
    IsListing (¬ IsCapital ·) (bodySymbols defs) (writtenTerminals defs) := by
  have hfilter : writtenTerminals defs = ((bodySymbols defs).filter isTerminalName).eraseDups := by
    rw [writtenTerminals, bodySymbols, List.filter_flatMap]
  rw [hfilter]
  refine (isListing_eraseDups_filter isTerminalName (bodySymbols defs)).congr fun s => ?_
  simp [isTerminalName, ← isNonterminalName_iff]

/-- The heads are listed as the rules have them. -/
theorem isListing_headNames (defs : List RuleDef) :
    IsListing (fun _ => True) (defs.map (·.head)) (headNames defs) := by
  have h := isListing_eraseDups_filter (fun _ => true) (defs.map (·.head))
  rw [List.filter_true] at h
  exact h.congr fun _ => by simp

/-- The nonterminals without rules are listed as the bodies write them. -/
theorem isListing_referencedNames (defs : List RuleDef) :
    IsListing (fun s => IsCapital s ∧ s ∉ defs.map (·.head)) (bodySymbols defs)
      (referencedNames defs) :=
  (isListing_eraseDups_filter _ (bodySymbols defs)).congr fun s => by
    simp [← isNonterminalName_iff]

/-- Heads come before the nonterminals that only stand in bodies. -/
theorem writtenNonterminals_eq (defs : List RuleDef) :
    writtenNonterminals defs = headNames defs ++ referencedNames defs := by
  rw [writtenNonterminals, List.eraseDups_append, headNames, referencedNames]
  have hbodies : (defs.flatMap fun r => r.body.filter isNonterminalName) =
      (bodySymbols defs).filter isNonterminalName := by
    rw [bodySymbols, List.filter_flatMap]
  rw [hbodies, List.removeAll, List.filter_filter]
  congr 3
  funext s
  rw [List.elem_eq_mem, decide_not, Bool.and_comm]

/-! ## The fresh start symbol -/

/-- A name with more primes is a different name. -/
theorem primed_injective (name : String) : Function.Injective (primed name) := by
  intro j k h
  -- each apostrophe adds one to the length
  have hone : "'".length = 1 := rfl
  have hlength (i : Nat) : (primed name i).length = name.length + i := by
    simp [primed, String.length_join, hone]
  have hsame := congrArg String.length h
  rw [hlength, hlength] at hsame
  exact Nat.add_left_cancel hsame

/-- **The fresh name is not taken.** -/
theorem freshName_not_mem (taken : Std.HashSet String) (name : String) :
    freshName taken name ∉ taken := by
  unfold freshName
  cases hfree : (List.range (taken.size + 1)).find? fun k => !taken.contains (primed name (k + 1)) with
  | some k => simpa using List.find?_some hfree
  | none =>
    -- there are more candidates than names, so they are not all taken
    have htaken : (List.range (taken.size + 1)).map (fun k => primed name (k + 1)) ⊆ taken.toList := by
      intro a ha
      obtain ⟨k, hk, rfl⟩ := List.mem_map.mp ha
      simpa using List.find?_eq_none.mp hfree k hk
    have hnodup : ((List.range (taken.size + 1)).map fun k => primed name (k + 1)).Nodup :=
      List.nodup_range.map fun j k h => Nat.succ.inj (primed_injective name h)
    have hlength := (List.subperm_of_subset hnodup htaken).length_le
    simp at hlength

/-! ## Names in the place of numbers -/

namespace Grammar

/-- A symbol has a number of the grammar and is called by a name. -/
def Calls (g : Grammar) : Symbol → String → Prop
  | .terminal t, name => g.terminals.value? t.number = some name
  | .nonterminal n, name => g.nonterminals.value? n.number = some name

/-- A rule is spelled like a written one: it has the same head and the same body. -/
def Spells (g : Grammar) (r : Rule) (d : RuleDef) : Prop :=
  g.Calls (.nonterminal r.left) d.head ∧ List.Forall₂ g.Calls r.right.toList d.body

variable {g : Grammar} {defs : List RuleDef}

/-- What calls a symbol is its name. -/
theorem Calls.symbolName_eq {x : Symbol} {name : String} (h : g.Calls x name) :
    g.symbolName x = name := by
  cases x with
  | terminal t => simp [symbolName, terminalName, show g.terminals.value? t.number = some name from h]
  | nonterminal n =>
    simp [symbolName, nonterminalName, show g.nonterminals.value? n.number = some name from h]

/-- What a rule is spelled like is how it is written. -/
theorem Spells.written_eq {r : Rule} {d : RuleDef} (h : g.Spells r d) : g.written r = d := by
  have hbody : r.right.toList.map g.symbolName = d.body := by
    rw [← List.forall₂_eq_eq_eq, List.forall₂_map_left_iff]
    exact h.2.imp fun _ _ => Calls.symbolName_eq
  show RuleDef.mk (g.nonterminalName r.left) (r.right.toList.map g.symbolName) = d
  rw [hbody, show g.nonterminalName r.left = d.head from h.1.symbolName_eq]

/-- The place of a registered nonterminal is called by its name. -/
theorem IsAugmentation.calls_nonterminal (h : g.IsAugmentation defs) {name : String}
    (hname : name ∈ nonterminalNames defs) :
    g.Calls (.nonterminal ⟨(nonterminalNames defs).idxOf name⟩) name := by
  show g.nonterminals.value? ((nonterminalNames defs).idxOf name) = some name
  rw [← Numbering.getElem?_toList, h.nonterminals]
  exact List.getElem?_idxOf hname

/-- The place of a registered terminal is called by its name. -/
theorem IsAugmentation.calls_terminal (h : g.IsAugmentation defs) {name : String}
    (hname : name ∈ terminalNames defs) :
    g.Calls (.terminal ⟨(terminalNames defs).idxOf name⟩) name := by
  show g.terminals.value? ((terminalNames defs).idxOf name) = some name
  rw [← Numbering.getElem?_toList, h.terminals]
  exact List.getElem?_idxOf hname

/-- **A rule is spelled like the one that it was written as.** -/
theorem IsAugmentation.spells_ruleOf (h : g.IsAugmentation defs) {d : RuleDef} (hd : d ∈ defs) :
    g.Spells (ruleOf (terminalNames defs) (nonterminalNames defs) d) d := by
  refine ⟨h.calls_nonterminal (head_mem hd), ?_⟩
  show List.Forall₂ g.Calls (d.body.map _) d.body
  rw [List.forall₂_map_left_iff, List.forall₂_same]
  intro name hname
  cases hclass : isNonterminalName name with
  | true => simpa [symbolOf, hclass] using h.calls_nonterminal (mem_nonterminalNames hd hname hclass)
  | false => simpa [symbolOf, hclass] using h.calls_terminal (mem_terminalNames hd hname hclass)

/-- The nonterminals are the fresh one, the heads, and those that only stand in bodies. -/
theorem IsAugmentation.toList_nonterminals (h : g.IsAugmentation defs) :
    g.nonterminals.toList = startName defs :: (headNames defs ++ referencedNames defs) := by
  rw [h.nonterminals, h.nonterminalNames_eq, writtenNonterminals_eq]

/-- The number of a head is one more than its place among the heads. -/
theorem IsAugmentation.idxOf_head_eq (h : g.IsAugmentation defs) {d : RuleDef} (hd : d ∈ defs) :
    (nonterminalNames defs).idxOf d.head = (headNames defs).idxOf d.head + 1 := by
  rw [h.nonterminalNames_eq, writtenNonterminals_eq,
    List.idxOf_cons_ne _ (h.startName_ne (h.valid d hd).1),
    List.idxOf_append_of_mem (head_mem_headNames hd)]

/-- **The nonterminals with rules come first.** -/
theorem IsAugmentation.isDefined_iff (h : g.IsAugmentation defs) {i : Nat} :
    g.isDefined ⟨i⟩ = true ↔ i ≤ (headNames defs).length := by
  rw [h.wellFormed.isDefined_iff, h.inputRules_eq]
  constructor
  · rintro (hfresh | ⟨r, hr, hleft⟩)
    · exact (congrArg Nonterminal.number hfresh).trans_le (Nat.zero_le _)
    · obtain ⟨d, hd, rfl⟩ := List.mem_map.mp hr
      have hi : (nonterminalNames defs).idxOf d.head = i := congrArg Nonterminal.number hleft
      rw [← hi, h.idxOf_head_eq hd]
      exact List.idxOf_lt_length_of_mem (head_mem_headNames hd)
  · intro hi
    cases i with
    | zero => exact .inl rfl
    | succ j =>
      -- a rule for the head with that place
      have hget := List.getElem?_eq_getElem (l := headNames defs) hi
      obtain ⟨d, hd, hhead⟩ := List.mem_map.mp (List.mem_eraseDups.mp (List.mem_of_getElem? hget))
      refine .inr ⟨_, List.mem_map_of_mem hd, congrArg Nonterminal.mk ?_⟩
      rw [h.idxOf_head_eq hd]
      refine congrArg (· + 1) ?_
      exact idxOf_of_getElem? (nodup_eraseDups _) (hget.trans (congrArg some hhead.symm))

/-- **The nonterminals without rules are those that only stand in bodies.** -/
theorem IsAugmentation.unresolved_eq (h : g.IsAugmentation defs) : g.unresolved =
    (List.range' ((headNames defs).length + 1) (referencedNames defs).length).map Nonterminal.mk := by
  have hsize : g.nonterminals.size =
      (headNames defs).length + 1 + (referencedNames defs).length := by
    rw [← Numbering.length_toList, h.toList_nonterminals]
    simp [Nat.add_right_comm]
  have hundefined : (fun n => !g.isDefined n) ∘ Nonterminal.mk =
      fun i => decide ((headNames defs).length < i) := by
    funext i
    rw [Function.comp_apply, Bool.eq_iff_iff, Bool.not_eq_true', ← Bool.not_eq_true,
      h.isDefined_iff, decide_eq_true_eq, Nat.not_le]
  rw [unresolved, allNonterminals, List.filter_map, hundefined, hsize, filter_lt_range]

end Grammar

/-! ## The whole numbering -/

/-- Nothing is lost in a grammar with a fresh start symbol, terminals and nonterminals of the given names:
it has the written rules. -/
structure Grammar.IsLossless (g : Grammar) (defs : List RuleDef) (fresh : String)
    (terminals heads referenced : List String) : Prop where
  /-- the rules have the numbers up to that of the last written one -/
  size_rules : g.rules.size = defs.length + 1
  /-- rule `0` replaces the fresh start symbol by the head of the first rule -/
  startRule : ∃ first ∈ defs.head?, g.rule? 0 = some ⟨.freshStart, #[.nonterminal g.start]⟩ ∧
    g.Calls (.nonterminal g.start) first.head
  /-- the others are the written ones in their order -/
  inputRules : ∀ k d, defs[k]? = some d →
    ∃ r, g.rule? (k + 1) = some r ∧ g.Spells r d ∧ g.written r = d
  /-- the end of the input comes before the other terminals -/
  toList_terminals : g.terminals.toList = "$" :: terminals
  /-- the other terminals are listed by first appearance -/
  listing_terminals : IsListing (¬ IsCapital ·) (bodySymbols defs) terminals
  /-- the fresh start symbol comes before the heads, and those before the other nonterminals -/
  toList_nonterminals : g.nonterminals.toList = fresh :: (heads ++ referenced)
  /-- heads are listed by first appearance -/
  listing_heads : IsListing (fun _ => True) (defs.map (·.head)) heads
  /-- nonterminals that only stand in bodies are listed by first appearance -/
  listing_referenced : IsListing (fun s => IsCapital s ∧ s ∉ defs.map (·.head)) (bodySymbols defs)
    referenced
  /-- these are the ones without rules -/
  unresolved : g.unresolved = (List.range' (heads.length + 1) referenced.length).map Nonterminal.mk
  /-- the name of the fresh start symbol is not written -/
  fresh_not_mem : ∀ d ∈ defs, fresh ∉ d.head :: d.body
  /-- and the symbol stands in no body -/
  freshStart_not_mem : ∀ k r, g.rule? k = some r → .nonterminal .freshStart ∉ r.right.toList

/-- **Numbering loses nothing.** -/
theorem Grammar.isLossless_of_augment {g : Grammar} {defs : List RuleDef}
    (h : Grammar.augment defs = .ok g) :
    g.IsLossless defs (startName defs) (writtenTerminals defs) (headNames defs)
      (referencedNames defs) := by
  have haug := isAugmentation_of_augment h
  exact {
    size_rules := by
      rw [← Array.length_toList, haug.rules, augmentedRules, List.length_cons, List.length_map]
    startRule := by
      obtain ⟨first, rest, rfl⟩ := List.exists_cons_of_ne_nil haug.nonempty
      refine ⟨first, rfl, ?_, ?_⟩
      · rw [rule?, ← Array.getElem?_toList, haug.wellFormed.startRule]
        rfl
      · rw [haug.start]
        exact haug.value?_one
    inputRules := by
      intro k d hd
      have hspells := haug.spells_ruleOf (List.mem_of_getElem? hd)
      refine ⟨_, ?_, hspells, hspells.written_eq⟩
      rw [rule?, ← Array.getElem?_toList, haug.rules, augmentedRules, List.getElem?_cons_succ,
        List.getElem?_map, hd]
      rfl
    toList_terminals := by
      rw [haug.terminals, terminalNames_eq haug.valid]
      rfl
    listing_terminals := isListing_writtenTerminals defs
    toList_nonterminals := haug.toList_nonterminals
    listing_heads := isListing_headNames defs
    listing_referenced := isListing_referencedNames defs
    unresolved := haug.unresolved_eq
    fresh_not_mem := fun d hd hmem => freshName_not_mem _ _ (mem_namesOf.mpr ⟨d, hd, hmem⟩)
    freshStart_not_mem := by
      intro k r hr
      have hmem := mem_rules_of_rule? hr
      rw [haug.wellFormed.startRule] at hmem
      rcases List.mem_cons.mp hmem with rfl | hinput
      · rw [haug.start]
        decide
      · exact haug.wellFormed.freshStart_not_mem hinput }

/-- Rules with repeated symbols, one of which looks like a fresh start symbol, and with a nonterminal
that has no rules. -/
def mixedRules : List RuleDef :=
  [⟨"S", ["a", "B", "S'", "a"]⟩, ⟨"C", ["b", "S", "B"]⟩, ⟨"S", []⟩, ⟨"C", ["b", "S", "B"]⟩]

/-- The symbols of such rules are listed by first appearance. -/
theorem Grammar.isLossless_of_augment_mixedRules : ∃ g, Grammar.augment mixedRules = .ok g ∧
    g.IsLossless mixedRules (startName mixedRules) ["a", "S'", "b"] ["S", "C"] ["B"] := by
  obtain ⟨g, hg⟩ : ∃ g, Grammar.augment mixedRules = .ok g :=
    exists_augment (by decide) (by unfold RuleDef.IsValid; decide) (by decide) (by decide)
  have hterminals : writtenTerminals mixedRules = ["a", "S'", "b"] := by cbv
  have hheads : headNames mixedRules = ["S", "C"] := by cbv
  have hreferenced : referencedNames mixedRules = ["B"] := by cbv
  have hlossless := isLossless_of_augment hg
  rw [hterminals, hheads, hreferenced] at hlossless
  exact ⟨g, hg, hlossless⟩

end ShiftReduce
