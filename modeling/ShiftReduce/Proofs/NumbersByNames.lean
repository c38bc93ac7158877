import ShiftReduce.Proofs.Evaluation
import ShiftReduce.Proofs.Renumbering

/-! # Other numbers by names

When a rule list has all rules of another one, each symbol of this one gets the number of its name there
(`Renumbering.between`). A rule that is written in both is the same under these numbers
(`Renumbering.between_ruleOf`), and symbols keep their names (`Renumbering.symbolName_between`), the
fresh start symbol excepted. -/

namespace ShiftReduce

/-- More rules have all the terminals. -/
theorem terminalNames_subset {defs defs' : List RuleDef} (hsub : ∀ d ∈ defs, d ∈ defs') :
    terminalNames defs ⊆ terminalNames defs' := by
  intro a
  unfold terminalNames
  simp only [List.mem_eraseDups, List.mem_cons, List.mem_flatMap]
  rintro (ha | ⟨d, hd, ha⟩)
  · exact Or.inl ha
  · exact Or.inr ⟨d, hsub d hd, ha⟩

/-- More rules have all the nonterminals. -/
theorem writtenNonterminals_subset {defs defs' : List RuleDef} (hsub : ∀ d ∈ defs, d ∈ defs') :
    writtenNonterminals defs ⊆ writtenNonterminals defs' := by
  intro a
  unfold writtenNonterminals
  simp only [List.mem_eraseDups, List.mem_append, List.mem_map, List.mem_flatMap]
  rintro (⟨d, hd, ha⟩ | ⟨d, hd, ha⟩)
  · exact Or.inl ⟨d, hsub d hd, ha⟩
  · exact Or.inr ⟨d, hsub d hd, ha⟩

/-- The written nonterminals and a place in front of them for the fresh start are different. -/
theorem nodup_cons_writtenNonterminals {defs : List RuleDef} (hvalid : ∀ d ∈ defs, d.IsValid) :
    ("" :: writtenNonterminals defs).Nodup :=
  List.nodup_cons.mpr ⟨not_mem_writtenNonterminals hvalid rfl, nodup_eraseDups _⟩

namespace Renumbering

variable {defs defs' : List RuleDef} (hsub : ∀ d ∈ defs, d ∈ defs')
  (hvalid : ∀ d ∈ defs', d.IsValid) (rule : Nat → Nat)

/-- Each symbol of a rule list gets the number of its name in a list that has all of its rules. -/
def between : Renumbering where
  terminal t := ⟨renumber (terminalNames defs) (terminalNames defs') t.number⟩
  nonterminal n :=
    ⟨renumber ("" :: writtenNonterminals defs) ("" :: writtenNonterminals defs') n.number⟩
  rule := rule
  terminal_injective := by
    intro t u h
    exact congrArg Terminal.mk
      (renumber_injective (nodup_eraseDups _) (terminalNames_subset hsub) (Terminal.mk.inj h))
  nonterminal_injective := by
    intro m n h
    exact congrArg Nonterminal.mk (renumber_injective
      (nodup_cons_writtenNonterminals fun d hd => hvalid d (hsub d hd))
      (List.cons_subset_cons _ (writtenNonterminals_subset hsub)) (Nonterminal.mk.inj h))

/-- The fresh start stays the fresh start. -/
theorem between_freshStart : (between hsub hvalid rule).nonterminal .freshStart = .freshStart := by
  refine congrArg Nonterminal.mk ((renumber_of_getElem? rfl).trans ?_)
  exact List.idxOf_cons_self

/-- The end of input stays the end of input. -/
theorem between_endOfInput : (between hsub hvalid rule).terminal .endOfInput = .endOfInput := by
  have hfirst : ∀ l : List RuleDef, ∃ rest, terminalNames l = endMark :: rest := fun l =>
    ⟨_, List.eraseDups_cons⟩
  obtain ⟨rest, hrest⟩ := hfirst defs
  obtain ⟨rest', hrest'⟩ := hfirst defs'
  refine congrArg Terminal.mk ((renumber_of_getElem? (a := endMark) ?_).trans ?_)
  · rw [hrest]
    rfl
  · rw [hrest', List.idxOf_cons_self]

/-- The head of the first rule has number `1` in both lists when it is the same. -/
theorem between_start (hne : defs ≠ []) (hhead : defs.head?.map (·.head) = defs'.head?.map (·.head)) :
    (between hsub hvalid rule).nonterminal ⟨1⟩ = ⟨1⟩ := by
  have hfirst : ∀ (d : RuleDef) (l : List RuleDef), ∃ rest,
      writtenNonterminals (d :: l) = d.head :: rest := fun d l => ⟨_, List.eraseDups_cons⟩
  obtain ⟨d, l, rfl⟩ := List.exists_cons_of_ne_nil hne
  cases defs' with
  | nil => cases hhead
  | cons d' l' =>
    obtain ⟨rest, hrest⟩ := hfirst d l
    obtain ⟨rest', hrest'⟩ := hfirst d' l'
    have hsame : d.head = d'.head := Option.some.inj hhead
    have hclass := (hvalid d' (List.mem_cons_self ..)).1
    have hempty : "" ≠ d'.head := ne_of_apply_ne isNonterminalName (by rw [hclass]; decide)
    refine congrArg Nonterminal.mk ((renumber_of_getElem? (a := d'.head) ?_).trans ?_)
    · rw [hrest, hsame]
      rfl
    · rw [hrest', List.idxOf_cons_ne _ hempty, List.idxOf_cons_self]

/-- **A rule that is written the same has the other number of the rule.** -/
theorem between_ruleOf {d : RuleDef} (hd : d ∈ defs) :
    (between hsub hvalid rule).ofRule
        (ruleOf (terminalNames defs) ("" :: writtenNonterminals defs) d) =
      ruleOf (terminalNames defs') ("" :: writtenNonterminals defs') d := by
  have hhead : d.head ∈ writtenNonterminals defs :=
    List.mem_eraseDups.mpr (List.mem_append_left _ (List.mem_map_of_mem hd))
  unfold ofRule ruleOf
  refine congr (congrArg Rule.mk (congrArg Nonterminal.mk
    (renumber_idxOf (List.mem_cons_of_mem _ hhead)))) ?_
  rw [List.map_toArray, List.map_map]
  refine congrArg List.toArray (List.map_congr_left fun name hname => ?_)
  show (between hsub hvalid rule).symbol (symbolOf _ _ name) = symbolOf _ _ name
  unfold symbolOf
  cases hclass : isNonterminalName name with
  | true =>
    have hmem : name ∈ writtenNonterminals defs := List.mem_eraseDups.mpr (List.mem_append_right _
      (List.mem_flatMap.mpr ⟨d, hd, List.mem_filter.mpr ⟨hname, hclass⟩⟩))
    rw [if_pos rfl, if_pos rfl]
    exact congrArg (fun i => Symbol.nonterminal ⟨i⟩) (renumber_idxOf (List.mem_cons_of_mem _ hmem))
  | false =>
    have hmem : name ∈ terminalNames defs := List.mem_eraseDups.mpr (List.mem_cons_of_mem _
      (List.mem_flatMap.mpr ⟨d, hd, List.mem_filter.mpr ⟨hname, by simp [isTerminalName, hclass]⟩⟩))
    rw [if_neg Bool.false_ne_true, if_neg Bool.false_ne_true]
    exact congrArg (fun i => Symbol.terminal ⟨i⟩) (renumber_idxOf hmem)

/-! ### Names -/

variable {g g' : Grammar}

/-- A terminal keeps its name. -/
theorem value?_between_terminal (haug : g.IsAugmentation defs) (haug' : g'.IsAugmentation defs')
    (t : Terminal) :
    g'.terminals.value? ((between hsub hvalid rule).terminal t).number =
      g.terminals.value? t.number := by
  rw [← Numbering.getElem?_toList, ← Numbering.getElem?_toList, haug.terminals, haug'.terminals]
  exact getElem?_renumber (terminalNames_subset hsub) t.number

/-- A nonterminal keeps its name, unless it is the fresh start symbol. -/
theorem value?_between_nonterminal (haug : g.IsAugmentation defs)
    (haug' : g'.IsAugmentation defs') {n : Nonterminal} (hn : n ≠ .freshStart) :
    g'.nonterminals.value? ((between hsub hvalid rule).nonterminal n).number =
      g.nonterminals.value? n.number := by
  have hfresh : (between hsub hvalid rule).nonterminal n ≠ .freshStart := fun heq =>
    hn ((between hsub hvalid rule).nonterminal_injective
      (heq.trans (between_freshStart hsub hvalid rule).symm))
  -- behind the fresh start symbol there are the same names, whatever this one is called
  obtain ⟨i, hi⟩ : ∃ i, n.number = i + 1 :=
    Nat.exists_eq_succ_of_ne_zero fun hzero => hn (congrArg Nonterminal.mk hzero)
  obtain ⟨j, hj⟩ : ∃ j, ((between hsub hvalid rule).nonterminal n).number = j + 1 :=
    Nat.exists_eq_succ_of_ne_zero fun hzero => hfresh (congrArg Nonterminal.mk hzero)
  have hplace : ("" :: writtenNonterminals defs')[j + 1]? =
      ("" :: writtenNonterminals defs)[i + 1]? := by
    rw [← hj, ← hi]
    exact getElem?_renumber (List.cons_subset_cons _ (writtenNonterminals_subset hsub)) n.number
  rw [← Numbering.getElem?_toList, ← Numbering.getElem?_toList, haug.nonterminals,
    haug'.nonterminals, haug.nonterminalNames_eq, haug'.nonterminalNames_eq, hi, hj,
    List.getElem?_cons_succ, List.getElem?_cons_succ]
  rwa [List.getElem?_cons_succ, List.getElem?_cons_succ] at hplace

/-- **A symbol keeps its name.** -/
theorem symbolName_between (haug : g.IsAugmentation defs) (haug' : g'.IsAugmentation defs')
    {x : Symbol} (hx : g.HasSymbol x) :
    g'.symbolName ((between hsub hvalid rule).symbol x) = g.symbolName x := by
  cases x with
  | terminal t =>
    show g'.terminalName _ = g.terminalName t
    unfold Grammar.terminalName
    rw [value?_between_terminal hsub hvalid rule haug haug' t]
  | nonterminal n =>
    show g'.nonterminalName _ = g.nonterminalName n
    unfold Grammar.nonterminalName
    rw [value?_between_nonterminal hsub hvalid rule haug haug' hx.1]

/-! ### Rules -/

/-- The rule that starts the derivations has the other number of itself. -/
theorem between_startRule (hne : defs ≠ [])
    (hhead : defs.head?.map (·.head) = defs'.head?.map (·.head)) :
    (between hsub hvalid rule).ofRule ⟨.freshStart, #[.nonterminal ⟨1⟩]⟩ =
      ⟨.freshStart, #[.nonterminal ⟨1⟩]⟩ := by
  unfold ofRule
  rw [between_freshStart, List.map_toArray, List.map_singleton, symbol_nonterminal,
    between_start hsub hvalid rule hne hhead]

/-- The rules of the first list are among those of the other one. -/
theorem ofRule_mem_rules (hg : g.IsNumbered defs) (hg' : g'.IsNumbered defs')
    (hhead : defs.head?.map (·.head) = defs'.head?.map (·.head)) {r : Rule}
    (hr : r ∈ g.rules.toList) : (between hsub hvalid rule).ofRule r ∈ g'.rules.toList := by
  rcases hg.mem_rules.mp hr with rfl | ⟨d, hd, rfl⟩
  · rw [between_startRule hsub hvalid rule hg.nonempty hhead]
    exact hg'.mem_rules.mpr (Or.inl rfl)
  · rw [between_ruleOf hsub hvalid rule hd]
    exact hg'.mem_rules.mpr (Or.inr ⟨d, hsub d hd, rfl⟩)

end Renumbering

end ShiftReduce
