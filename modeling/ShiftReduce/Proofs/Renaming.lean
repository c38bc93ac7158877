import ShiftReduce.Proofs.Completeness

/-! # Renaming symbols

The names in a rule list can be replaced by others as long as different names stay different and each
stays in its class (`IsRenaming`). The places of first appearance stay what they were, so that the renamed
list gets the same numbers (`IsRenaming.isNumbered`) and with them the same tables; only the names of the
numbers are the new ones, and the fresh start symbol has the name that is chosen among them
(`Tables.ofRules_rename`). -/

namespace ShiftReduce

/-! ## Renamed rule lists -/

/-- A rule with other names. -/
def RuleDef.rename (f : String → String) (r : RuleDef) : RuleDef := ⟨f r.head, r.body.map f⟩

/-- The head is renamed. -/
@[simp] theorem RuleDef.head_rename (f : String → String) (r : RuleDef) :
    (r.rename f).head = f r.head := rfl

/-- The symbols of the body are renamed. -/
@[simp] theorem RuleDef.body_rename (f : String → String) (r : RuleDef) :
    (r.rename f).body = r.body.map f := rfl

/-- The names in a rule list. -/
def usedNames (defs : List RuleDef) : List String := defs.flatMap fun r => r.head :: r.body

section UsedNames

variable {defs : List RuleDef} {name : String}

/-- A head is a used name. -/
theorem head_mem_usedNames {r : RuleDef} (hr : r ∈ defs) : r.head ∈ usedNames defs :=
  List.mem_flatMap.mpr ⟨r, hr, List.mem_cons_self ..⟩

/-- A symbol of a body is a used name. -/
theorem mem_usedNames_of_mem_body {r : RuleDef} (hr : r ∈ defs) (hname : name ∈ r.body) :
    name ∈ usedNames defs :=
  List.mem_flatMap.mpr ⟨r, hr, List.mem_cons_of_mem _ hname⟩

/-- Some of the symbols of the bodies are used names too. -/
theorem mem_usedNames_of_mem_filter {p : String → Bool}
    (h : name ∈ defs.flatMap fun r => r.body.filter p) : name ∈ usedNames defs := by
  obtain ⟨r, hr, hbody⟩ := List.mem_flatMap.mp h
  exact mem_usedNames_of_mem_body hr (List.mem_filter.mp hbody).1

/-- The terminals' names are used. -/
theorem mem_usedNames_of_mem_writtenTerminals (h : name ∈ writtenTerminals defs) :
    name ∈ usedNames defs :=
  mem_usedNames_of_mem_filter (List.mem_eraseDups.mp h)

/-- The nonterminals' names are used. -/
theorem mem_usedNames_of_mem_writtenNonterminals (h : name ∈ writtenNonterminals defs) :
    name ∈ usedNames defs := by
  rcases List.mem_append.mp (List.mem_eraseDups.mp h) with hhead | hbody
  · obtain ⟨r, hr, rfl⟩ := List.mem_map.mp hhead
    exact head_mem_usedNames hr
  · exact mem_usedNames_of_mem_filter hbody

end UsedNames

/-- Names are replaced by names of the same class that can be in a rule list, different ones by
different ones. -/
structure IsRenaming (f : String → String) (defs : List RuleDef) : Prop where
  /-- different names in the list stay different -/
  injOn : ∀ a ∈ usedNames defs, ∀ b ∈ usedNames defs, f a = f b → a = b
  /-- nonterminals stay nonterminals -/
  nonterminal : ∀ a ∈ usedNames defs, isNonterminalName a = true → isNonterminalName (f a) = true
  /-- terminals stay terminals and get no name that is kept for something else -/
  terminal : ∀ a ∈ usedNames defs, isTerminalName a = true →
    isTerminalName (f a) = true ∧ f a ≠ "" ∧ f a ≠ endMark ∧ f a ≠ emptyMark

namespace IsRenaming

variable {f : String → String} {defs : List RuleDef}

/-- A name stays in its class. -/
theorem isNonterminalName_eq (h : IsRenaming f defs) {a : String} (ha : a ∈ usedNames defs) :
    isNonterminalName (f a) = isNonterminalName a := by
  cases hclass : isNonterminalName a with
  | true => exact h.nonterminal a ha hclass
  | false =>
    have hterminal := (h.terminal a ha (by simp [isTerminalName, hclass])).1
    simpa [isTerminalName] using hterminal

/-- A renamed symbol is a terminal when the symbol is. -/
theorem isTerminalName_eq (h : IsRenaming f defs) {a : String} (ha : a ∈ usedNames defs) :
    isTerminalName (f a) = isTerminalName a := by
  unfold isTerminalName
  rw [h.isNonterminalName_eq ha]

/-- A valid rule stays valid. -/
theorem isValid (h : IsRenaming f defs) {r : RuleDef} (hr : r ∈ defs) (hvalid : r.IsValid) :
    (r.rename f).IsValid := by
  obtain ⟨hhead, -, hlength⟩ := hvalid
  refine ⟨h.nonterminal _ (head_mem_usedNames hr) hhead, ?_, by simpa using hlength⟩
  intro name hname
  obtain ⟨a, ha, rfl⟩ := List.mem_map.mp hname
  have hused := mem_usedNames_of_mem_body hr ha
  cases hclass : isNonterminalName a with
  | false => exact (h.terminal a hused (by simp [isTerminalName, hclass])).2
  | true =>
    -- a letter is none of the names that are kept for something else
    have hletter := h.nonterminal a hused hclass
    exact ⟨ne_of_apply_ne isNonterminalName (by rw [hletter]; decide),
      ne_of_apply_ne isNonterminalName (by rw [hletter]; decide),
      ne_of_apply_ne isNonterminalName (by rw [hletter]; decide)⟩

/-! ## Lists of names -/

/-- The names of one class in the bodies are renamed one by one. -/
theorem flatMap_filter_rename {p : String → Bool} (hp : ∀ a ∈ usedNames defs, p (f a) = p a) :
    ((defs.map (RuleDef.rename f)).flatMap fun r => r.body.filter p) =
      (defs.flatMap fun r => r.body.filter p).map f := by
  rw [List.flatMap_map, List.map_flatMap]
  refine List.flatMap_congr fun r hr => ?_
  rw [RuleDef.body_rename, List.filter_map]
  refine congrArg (List.map f) (List.filter_congr fun a ha => ?_)
  exact hp a (mem_usedNames_of_mem_body hr ha)

/-- The renamed terminals are first met in the order of the terminals. -/
theorem writtenTerminals_rename (h : IsRenaming f defs) :
    writtenTerminals (defs.map (RuleDef.rename f)) = (writtenTerminals defs).map f := by
  unfold writtenTerminals
  rw [flatMap_filter_rename fun a => h.isTerminalName_eq]
  exact eraseDups_map fun a ha b hb =>
    h.injOn a (mem_usedNames_of_mem_filter ha) b (mem_usedNames_of_mem_filter hb)

/-- The renamed nonterminals are first met in the order of the nonterminals. -/
theorem writtenNonterminals_rename (h : IsRenaming f defs) :
    writtenNonterminals (defs.map (RuleDef.rename f)) = (writtenNonterminals defs).map f := by
  have hheads : (defs.map (RuleDef.rename f)).map (·.head) = (defs.map (·.head)).map f := by
    rw [List.map_map, List.map_map]
    rfl
  have hused : ∀ a ∈ defs.map (·.head) ++ defs.flatMap fun r => r.body.filter isNonterminalName,
      a ∈ usedNames defs := fun a ha =>
    mem_usedNames_of_mem_writtenNonterminals (List.mem_eraseDups.mpr ha)
  unfold writtenNonterminals
  rw [flatMap_filter_rename fun a => h.isNonterminalName_eq, hheads, ← List.map_append]
  exact eraseDups_map fun a ha b hb => h.injOn a (hused a ha) b (hused b hb)

/-! ## Rules by number -/

/-- A renamed name keeps its place behind a name that is not renamed. -/
theorem idxOf_cons_rename (h : IsRenaming f defs) {l : List String}
    (hl : ∀ a ∈ l, a ∈ usedNames defs) {first name : String} (hname : name ∈ usedNames defs)
    (hne : first ≠ name) (hne' : first ≠ f name) :
    (first :: l.map f).idxOf (f name) = (first :: l).idxOf name := by
  rw [List.idxOf_cons_ne _ hne, List.idxOf_cons_ne _ hne',
    idxOf_map fun b hb => h.injOn b (hl b hb) name hname]

/-- A renamed nonterminal keeps its place. -/
theorem idxOf_nonterminal (h : IsRenaming f defs) {name : String} (hname : name ∈ usedNames defs)
    (hclass : isNonterminalName name = true) :
    ("" :: (writtenNonterminals defs).map f).idxOf (f name) =
      ("" :: writtenNonterminals defs).idxOf name := by
  have hletter := h.nonterminal name hname hclass
  refine h.idxOf_cons_rename (fun _ => mem_usedNames_of_mem_writtenNonterminals) hname ?_ ?_
  · exact ne_of_apply_ne isNonterminalName (by rw [hclass]; decide)
  · exact ne_of_apply_ne isNonterminalName (by rw [hletter]; decide)

/-- A renamed rule is the same rule by number. -/
theorem ruleOf_rename (h : IsRenaming f defs) {r : RuleDef} (hr : r ∈ defs) (hvalid : r.IsValid) :
    ruleOf (endMark :: (writtenTerminals defs).map f) ("" :: (writtenNonterminals defs).map f)
        (r.rename f) =
      ruleOf (endMark :: writtenTerminals defs) ("" :: writtenNonterminals defs) r := by
  unfold ruleOf
  rw [RuleDef.head_rename, h.idxOf_nonterminal (head_mem_usedNames hr) hvalid.1,
    RuleDef.body_rename, List.map_map]
  refine congrArg (Rule.mk _) (congrArg List.toArray (List.map_congr_left fun name hname => ?_))
  have hused := mem_usedNames_of_mem_body hr hname
  change symbolOf _ _ (f name) = _
  unfold symbolOf
  rw [h.isNonterminalName_eq hused]
  cases hclass : isNonterminalName name with
  | true => rw [if_pos rfl, if_pos rfl, h.idxOf_nonterminal hused hclass]
  | false =>
    have hkept := h.terminal name hused (by simp [isTerminalName, hclass])
    rw [if_neg Bool.false_ne_true, if_neg Bool.false_ne_true,
      h.idxOf_cons_rename (fun _ => mem_usedNames_of_mem_writtenTerminals) hused
        (hvalid.2.1 name hname).2.1.symm hkept.2.2.1.symm]

/-- **The numbers of a rule list are also those of the renamed list.** -/
theorem isNumbered (h : IsRenaming f defs) {g : Grammar} (hg : g.IsNumbered defs) :
    g.IsNumbered (defs.map (RuleDef.rename f)) := by
  have hvalid : ∀ r ∈ defs.map (RuleDef.rename f), r.IsValid := by
    intro r' hr'
    obtain ⟨r, hr, rfl⟩ := List.mem_map.mp hr'
    exact h.isValid hr (hg.valid r hr)
  have hterminals : terminalNames (defs.map (RuleDef.rename f)) =
      endMark :: (writtenTerminals defs).map f := by
    rw [terminalNames_eq hvalid, h.writtenTerminals_rename]
  have hlength : (terminalNames (defs.map (RuleDef.rename f))).length =
      (terminalNames defs).length := by
    rw [hterminals, terminalNames_eq hg.valid, List.length_cons, List.length_map, List.length_cons]
  exact {
    nonempty := fun hnil => hg.nonempty (List.map_eq_nil_iff.mp hnil)
    valid := hvalid
    terminals_le := hlength ▸ hg.terminals_le
    rules_le := (List.length_map _).symm ▸ hg.rules_le
    terminals := hlength ▸ hg.terminals
    nonterminals := by rw [hg.nonterminals, h.writtenNonterminals_rename, List.length_map]
    rules := by
      rw [hg.rules, terminalNames_eq hg.valid, hterminals, h.writtenNonterminals_rename,
        List.map_map]
      refine congrArg (_ :: ·) (List.map_congr_left fun r hr => ?_)
      exact (h.ruleOf_rename hr (hg.valid r hr)).symm
    start := hg.start }

end IsRenaming

/-! ## A renaming -/

/-- Exchanges two nonterminals and calls the terminal as the fresh start symbol would be called. -/
def exchangeNames (name : String) : String :=
  if name = "S" then "B" else if name = "B" then "S" else if name = "a" then "B'" else name

/-- The exchange of two names renames the symbols of the star rules. -/
theorem isRenaming_exchangeNames : IsRenaming exchangeNames starRules where
  injOn := by decide
  nonterminal := by decide
  terminal := by decide

namespace Tables

/-- **Names matter only through their equality and their class.** A renamed rule list gets the same
tables, and the names that belong to the numbers are renamed one by one, the reserved ones excepted. -/
theorem ofRules_rename {defs : List RuleDef} {t : Tables} (h : ofRules defs = .ok t)
    {f : String → String} (hf : IsRenaming f defs) :
    ∃ t', ofRules (defs.map (RuleDef.rename f)) = .ok t' ∧ t'.SameNumbers t ∧
      ∃ terminals nonterminals : List String,
        t.grammar.terminals.toList = endMark :: terminals ∧
        t'.grammar.terminals.toList = endMark :: terminals.map f ∧
        t.grammar.nonterminals.toList = startName defs :: nonterminals ∧
        t'.grammar.nonterminals.toList =
          startName (defs.map (RuleDef.rename f)) :: nonterminals.map f := by
  obtain ⟨g, hg, rfl⟩ := ofRules_eq_ok.mp h
  have hnumbered := hf.isNumbered (Grammar.isNumbered_of_augment hg)
  obtain ⟨g', hg'⟩ := Grammar.exists_augment hnumbered.nonempty hnumbered.valid
    hnumbered.terminals_le hnumbered.rules_le
  have hsame : g'.SameNumbers g := (Grammar.isNumbered_of_augment hg').sameNumbers hnumbered
  have haug := Grammar.isAugmentation_of_augment hg
  have haug' := Grammar.isAugmentation_of_augment hg'
  refine ⟨ofGrammar g', ofRules_eq_ok.mpr ⟨g', hg', rfl⟩, hsame.tables, writtenTerminals defs,
    writtenNonterminals defs, ?_, ?_, ?_, ?_⟩
  · exact haug.terminals.trans (terminalNames_eq haug.valid)
  · rw [← hf.writtenTerminals_rename]
    exact haug'.terminals.trans (terminalNames_eq haug'.valid)
  · exact haug.nonterminals.trans haug.nonterminalNames_eq
  · rw [← hf.writtenNonterminals_rename]
    exact haug'.nonterminals.trans haug'.nonterminalNames_eq

/-- The rules over other names, one of which is that of the fresh start symbol before. -/
theorem ofRules_rename_starRules : ∃ t, ofRules starRules = .ok t ∧
    IsRenaming exchangeNames starRules ∧
    ∃ t', ofRules (starRules.map (RuleDef.rename exchangeNames)) = .ok t' ∧ t'.SameNumbers t ∧
      ∃ terminals nonterminals : List String,
        t.grammar.terminals.toList = endMark :: terminals ∧
        t'.grammar.terminals.toList = endMark :: terminals.map exchangeNames ∧
        t.grammar.nonterminals.toList = startName starRules :: nonterminals ∧
        t'.grammar.nonterminals.toList =
          startName (starRules.map (RuleDef.rename exchangeNames)) ::
            nonterminals.map exchangeNames := by
  obtain ⟨t, ht, -, -⟩ := exists_starTables
  exact ⟨t, ht, isRenaming_exchangeNames, ofRules_rename ht isRenaming_exchangeNames⟩

end Tables

end ShiftReduce
