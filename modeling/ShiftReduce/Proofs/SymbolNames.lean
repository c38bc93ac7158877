import ShiftReduce.Proofs.Lossless
import Mathlib.Order.Bounds.Basic

/-! # Names of symbols

The fresh start symbol is called like the start symbol, with apostrophes behind it that are put there one
by one as long as the name is taken (`PrimesWhileTaken`). Finitely many names cannot be all of the primed
ones, so this comes to an end, at the least number of apostrophes that gives a free name
(`primesWhileTaken_iff`), which is the one that is found among as many candidates as there are names and
one more (`isLeast_freshName`). The name has an apostrophe and is not written, so it is none of the others,
and all symbols are told apart by their names (`Grammar.namesSymbols`). -/

namespace ShiftReduce

/-! ## The search for a free name -/

/-- One apostrophe after the other is put behind a name, as long as it is taken. -/
inductive PrimesWhileTaken (taken : String → Prop) : String → String → Prop
  | free {name : String} (h : ¬ taken name) : PrimesWhileTaken taken name name
  | prime {name last : String} (h : taken name)
      (rest : PrimesWhileTaken taken (name ++ "'") last) : PrimesWhileTaken taken name last

/-- One more prime is put behind the others. -/
theorem primed_succ (name : String) (k : Nat) : primed name (k + 1) = primed name k ++ "'" := by
  unfold primed
  rw [List.replicate_succ', String.join_append, String.append_assoc]
  rfl

/-- One prime is put behind the name. -/
theorem primed_one (name : String) : primed name 1 = name ++ "'" := rfl

namespace PrimesWhileTaken

variable {taken : String → Prop} {name : String}

/-- The search leads to one name at most. -/
theorem unique {last last' : String} (h : PrimesWhileTaken taken name last)
    (h' : PrimesWhileTaken taken name last') : last = last' := by
  induction h with
  | free hfree =>
    cases h' with
    | free => rfl
    | prime htaken => exact absurd htaken hfree
  | prime htaken _ ih =>
    cases h' with
    | free hfree => exact absurd htaken hfree
    | prime _ hrest => exact ih hrest

/-- As many apostrophes are put behind a name as give taken ones. -/
theorem of_forall_taken {j : Nat} (n : Nat) (htaken : ∀ i < n, taken (primed name (j + i)))
    (hfree : ¬ taken (primed name (j + n))) :
    PrimesWhileTaken taken (primed name j) (primed name (j + n)) := by
  induction n generalizing j with
  | zero => exact .free hfree
  | succ n ih =>
    have hplace (i : Nat) : j + 1 + i = j + (i + 1) := by rw [Nat.add_right_comm, Nat.add_assoc]
    have hrest : PrimesWhileTaken taken (primed name (j + 1)) (primed name (j + 1 + n)) :=
      ih (fun i hi => hplace i ▸ htaken (i + 1) (Nat.succ_lt_succ hi)) (hplace n ▸ hfree)
    rw [primed_succ, hplace] at hrest
    exact .prime (htaken 0 (Nat.succ_pos n)) hrest

end PrimesWhileTaken

/-- **The search ends at the least number of apostrophes** that gives a free name, and there only. -/
theorem primesWhileTaken_iff {taken : String → Prop} {name last : String} {k : Nat}
    (hk : IsLeast {k | 1 ≤ k ∧ ¬ taken (primed name k)} k) :
    PrimesWhileTaken taken (name ++ "'") last ↔ last = primed name k := by
  obtain ⟨n, rfl⟩ := Nat.exists_eq_add_of_le hk.1.1
  have hends : PrimesWhileTaken taken (primed name 1) (primed name (1 + n)) := by
    refine .of_forall_taken n (fun i hi => ?_) hk.1.2
    -- a free name with fewer apostrophes would be found before
    by_contra hfree
    have hle : 1 + n ≤ 1 + i := hk.2 ⟨Nat.le_add_right 1 i, hfree⟩
    omega
  rw [primed_one] at hends
  exact ⟨fun h => h.unique hends, fun h => h ▸ hends⟩

/-- **The fresh name has the least number of apostrophes** that gives a free one, and no more of them than
there are names and one. -/
theorem isLeast_freshName (taken : Std.HashSet String) (name : String) :
    ∃ k ≤ taken.size + 1, IsLeast {k | 1 ≤ k ∧ primed name k ∉ taken} k ∧
      freshName taken name = primed name k := by
  have hfree := freshName_not_mem taken name
  unfold freshName at hfree ⊢
  cases hfind : (List.range (taken.size + 1)).find? fun k => !taken.contains (primed name (k + 1)) with
  | none =>
    -- the last candidate is free, so that the search does not come back with nothing
    rw [hfind] at hfree
    have hlast := List.find?_eq_none.mp hfind taken.size (List.mem_range.mpr (Nat.lt_succ_self _))
    exact absurd hfree (by simpa using hlast)
  | some k =>
    obtain ⟨hk, hlt, hbefore⟩ := List.find?_range_eq_some.mp hfind
    refine ⟨k + 1, List.mem_range.mp hlt, ⟨⟨Nat.succ_pos k, by simpa using hk⟩, ?_⟩, rfl⟩
    rintro j ⟨hj, hjfree⟩
    obtain ⟨i, rfl⟩ := Nat.exists_eq_add_of_le' hj
    by_contra hlt
    have htaken := hbefore i (by omega)
    exact hjfree (by simpa using htaken)

/-! ## Names and symbols -/

/-- Behind the first one of a numbering come the others. -/
theorem Numbering.exists_value?_of_ne_zero {t : Numbering String} {first : String}
    {rest : List String} (h : t.toList = first :: rest) {i : Nat} (hi : i ≠ 0) (hlt : i < t.size) :
    ∃ name ∈ rest, t.value? i = some name := by
  obtain ⟨i, rfl⟩ := Nat.exists_eq_succ_of_ne_zero hi
  rw [← length_toList, h] at hlt
  have hrest : i < rest.length := Nat.lt_of_succ_lt_succ hlt
  refine ⟨rest[i], List.getElem_mem hrest, ?_⟩
  rw [← getElem?_toList, h]
  exact List.getElem?_eq_getElem hrest

/-- A name stands in a rule list, as a head or in a body. -/
def IsWritten (defs : List RuleDef) (name : String) : Prop := ∃ d ∈ defs, name ∈ d.head :: d.body

namespace Grammar

/-- All symbols, the end of the input and the fresh start symbol included. -/
def allSymbols (g : Grammar) : List Symbol :=
  g.allTerminals.map .terminal ++ g.allNonterminals.map .nonterminal

/-- The names of the symbols of a grammar tell them apart, those of a rule list are among them, and the
fresh start symbol has the least primed name that is left. -/
structure NamesSymbols (g : Grammar) (defs : List RuleDef) : Prop where
  /-- different symbols have different names -/
  injOn : Set.InjOn g.symbolName {x | x ∈ g.allSymbols}
  /-- the end of the input is a symbol with the reserved name -/
  endOfInput : .terminal .endOfInput ∈ g.allSymbols ∧ g.symbolName (.terminal .endOfInput) = "$"
  /-- the fresh start symbol is called like the head of the first rule, with the least number of
  apostrophes that gives a name which is not written -/
  freshStart : .nonterminal .freshStart ∈ g.allSymbols ∧ ∃ first ∈ defs.head?, ∃ k,
    IsLeast {k | 1 ≤ k ∧ ¬ IsWritten defs (primed first.head k)} k ∧
      g.symbolName (.nonterminal .freshStart) = primed first.head k
  /-- the other symbols are those in use: they have the names that are written -/
  isWritten_iff : ∀ name, IsWritten defs name ↔ ∃ x ∈ g.allSymbols,
    x ≠ .terminal .endOfInput ∧ x ≠ .nonterminal .freshStart ∧ g.symbolName x = name

variable {g : Grammar} {defs : List RuleDef}

/-- The terminals are among the symbols. -/
theorem terminal_mem_allSymbols {t : Terminal} : .terminal t ∈ g.allSymbols ↔ t ∈ g.allTerminals := by
  simp [allSymbols]

/-- The nonterminals are among the symbols. -/
theorem nonterminal_mem_allSymbols {n : Nonterminal} :
    .nonterminal n ∈ g.allSymbols ↔ n ∈ g.allNonterminals := by
  simp [allSymbols]

/-- The symbols in use are all but the two reserved ones. -/
theorem hasSymbol_iff {x : Symbol} : g.HasSymbol x ↔
    x ∈ g.allSymbols ∧ x ≠ .terminal .endOfInput ∧ x ≠ .nonterminal .freshStart := by
  cases x with
  | terminal t => simp [HasSymbol, terminal_mem_allSymbols, mem_allTerminals, and_comm]
  | nonterminal n => simp [HasSymbol, nonterminal_mem_allSymbols, mem_allNonterminals, and_comm]

/-- A primed name is not that of the end of the input. -/
theorem primed_ne_endMark (name : String) {k : Nat} (hk : 1 ≤ k) : primed name k ≠ endMark := by
  obtain ⟨j, rfl⟩ := Nat.exists_eq_add_of_le' hk
  intro heq
  -- they end in different characters
  have hlast := congrArg (fun s => s.toList.getLast?) heq
  rw [primed_succ] at hlast
  simp [endMark] at hlast

namespace IsAugmentation

/-- The end of input has its mark as its name. -/
theorem symbolName_endOfInput (h : g.IsAugmentation defs) :
    g.symbolName (.terminal .endOfInput) = endMark := by
  have hcalls : g.Calls (.terminal .endOfInput) endMark := by
    show g.terminals.value? 0 = some endMark
    rw [← Numbering.getElem?_toList, h.terminals, terminalNames_eq h.valid]
    rfl
  exact hcalls.symbolName_eq

/-- A symbol in use has a name that is written. -/
theorem isWritten_symbolName (h : g.IsAugmentation defs) {x : Symbol} (hx : g.HasSymbol x) :
    IsWritten defs (g.symbolName x) := by
  cases x with
  | terminal t =>
    have hlist : g.terminals.toList = endMark :: writtenTerminals defs :=
      h.terminals.trans (terminalNames_eq h.valid)
    obtain ⟨name, hmem, hvalue⟩ := Numbering.exists_value?_of_ne_zero hlist
      (fun hzero => hx.1 (congrArg Terminal.mk hzero)) hx.2
    have hcalls : g.Calls (.terminal t) name := hvalue
    obtain ⟨d, hd, hbody⟩ := List.mem_flatMap.mp (List.mem_eraseDups.mp hmem)
    rw [hcalls.symbolName_eq]
    exact ⟨d, hd, List.mem_cons_of_mem _ (List.mem_filter.mp hbody).1⟩
  | nonterminal n =>
    have hlist : g.nonterminals.toList = startName defs :: writtenNonterminals defs :=
      h.nonterminals.trans h.nonterminalNames_eq
    obtain ⟨name, hmem, hvalue⟩ := Numbering.exists_value?_of_ne_zero hlist
      (fun hzero => hx.1 (congrArg Nonterminal.mk hzero)) hx.2
    have hcalls : g.Calls (.nonterminal n) name := hvalue
    rw [hcalls.symbolName_eq]
    rcases List.mem_append.mp (List.mem_eraseDups.mp hmem) with hhead | hbody
    · obtain ⟨d, hd, heq⟩ := List.mem_map.mp hhead
      exact ⟨d, hd, heq ▸ List.mem_cons_self ..⟩
    · obtain ⟨d, hd, hbody⟩ := List.mem_flatMap.mp hbody
      exact ⟨d, hd, List.mem_cons_of_mem _ (List.mem_filter.mp hbody).1⟩

/-- A name that is written is that of a symbol in use. -/
theorem exists_symbolName_eq (h : g.IsAugmentation defs) {name : String}
    (hname : IsWritten defs name) : ∃ x, g.HasSymbol x ∧ g.symbolName x = name := by
  obtain ⟨d, hd, hname⟩ := hname
  have hspells := h.spells_ruleOf hd
  have hinput : ruleOf (terminalNames defs) (nonterminalNames defs) d ∈ g.inputRules := by
    rw [h.inputRules_eq]
    exact List.mem_map_of_mem hd
  rcases List.mem_cons.mp hname with rfl | hname
  · exact ⟨_, h.wellFormed.hasSymbol_left _ hinput, hspells.1.symbolName_eq⟩
  · rw [← congrArg RuleDef.body hspells.written_eq] at hname
    obtain ⟨x, hx, rfl⟩ := List.mem_map.mp hname
    exact ⟨x, h.wellFormed.hasSymbol_right _ hinput x hx, rfl⟩

/-- The name of the fresh start symbol is not that of a terminal. -/
theorem terminalName_ne_startName (h : g.IsAugmentation defs) {t : Terminal}
    (ht : t ∈ g.allTerminals) : g.terminalName t ≠ startName defs := by
  by_cases hend : t = .endOfInput
  · -- the reserved name has no apostrophe
    obtain ⟨k, -, hk, hname⟩ := isLeast_freshName (namesOf defs) ((defs.head?.map (·.head)).getD "")
    have hendName : g.terminalName t = endMark := hend ▸ h.symbolName_endOfInput
    rw [startName, hname, hendName]
    exact (primed_ne_endMark _ hk.1.1).symm
  · intro heq
    have hwritten := h.isWritten_symbolName (x := .terminal t) ⟨hend, mem_allTerminals.mp ht⟩
    rw [symbolName, heq] at hwritten
    exact freshName_not_mem _ _ (mem_namesOf.mpr hwritten)

/-- No terminal has the name of a nonterminal. -/
theorem terminalName_ne_nonterminalName (h : g.IsAugmentation defs) {t : Terminal} {n : Nonterminal}
    (ht : t ∈ g.allTerminals) (hn : n ∈ g.allNonterminals) :
    g.terminalName t ≠ g.nonterminalName n := by
  by_cases hfresh : n = .freshStart
  · rw [hfresh, h.nonterminalName_freshStart]
    exact h.terminalName_ne_startName ht
  · intro heq
    have hclass := congrArg isNonterminalName heq
    rw [h.isNonterminalName_terminalName ht, h.isNonterminalName_nonterminalName hn hfresh] at hclass
    cases hclass

/-- **Names tell all symbols apart,** the reserved ones included. -/
theorem symbolName_injOn (h : g.IsAugmentation defs) :
    Set.InjOn g.symbolName {x | x ∈ g.allSymbols} := by
  intro x hx y hy hname
  cases x with
  | terminal t =>
    have ht : t ∈ g.allTerminals := terminal_mem_allSymbols.mp hx
    cases y with
    | terminal u => rw [terminalName_inj ht (terminal_mem_allSymbols.mp hy) hname]
    | nonterminal m =>
      exact absurd hname (h.terminalName_ne_nonterminalName ht (nonterminal_mem_allSymbols.mp hy))
  | nonterminal n =>
    have hn : n ∈ g.allNonterminals := nonterminal_mem_allSymbols.mp hx
    cases y with
    | terminal u =>
      exact absurd hname.symm (h.terminalName_ne_nonterminalName (terminal_mem_allSymbols.mp hy) hn)
    | nonterminal m => rw [nonterminalName_inj hn (nonterminal_mem_allSymbols.mp hy) hname]

end IsAugmentation

/-- **The search for the name of the fresh start symbol ends for every rule list,** at the least number
of apostrophes that gives a name which is not written, and **in an accepted one all symbols are told apart
by their names.** -/
theorem namesSymbols (defs : List RuleDef) :
    (∀ first ∈ defs.head?, ∃ k, IsLeast {k | 1 ≤ k ∧ ¬ IsWritten defs (primed first.head k)} k ∧
      ∀ name, PrimesWhileTaken (IsWritten defs) (first.head ++ "'") name ↔
        name = primed first.head k) ∧
    ∀ g, Grammar.augment defs = .ok g → g.NamesSymbols defs := by
  have hleast (first : RuleDef) (hfirst : first ∈ defs.head?) : ∃ k,
      IsLeast {k | 1 ≤ k ∧ ¬ IsWritten defs (primed first.head k)} k ∧
        startName defs = primed first.head k := by
    obtain ⟨k, -, hk, hname⟩ := isLeast_freshName (namesOf defs) first.head
    simp only [mem_namesOf] at hk
    refine ⟨k, hk, ?_⟩
    rw [startName, Option.mem_def.mp hfirst, Option.map_some, Option.getD_some, hname]
  constructor
  · intro first hfirst
    obtain ⟨k, hk, -⟩ := hleast first hfirst
    exact ⟨k, hk, fun name => primesWhileTaken_iff hk⟩
  · intro g hg
    have haug := isAugmentation_of_augment hg
    have wf := haug.wellFormed
    obtain ⟨first, rest, hdefs⟩ := List.exists_cons_of_ne_nil haug.nonempty
    have hfirst : first ∈ defs.head? := by simp [hdefs]
    obtain ⟨k, hk, hname⟩ := hleast first hfirst
    exact {
      injOn := haug.symbolName_injOn
      endOfInput := ⟨terminal_mem_allSymbols.mpr (mem_allTerminals.mpr wf.endOfInput_lt),
        haug.symbolName_endOfInput⟩
      freshStart := by
        refine ⟨nonterminal_mem_allSymbols.mpr (mem_allNonterminals.mpr ?_), first, hfirst, k, hk, ?_⟩
        · exact Nat.zero_lt_of_lt wf.hasSymbol_start.2
        · exact haug.nonterminalName_freshStart.trans hname
      isWritten_iff := by
        intro name
        constructor
        · intro hwritten
          obtain ⟨x, hx, hxname⟩ := haug.exists_symbolName_eq hwritten
          obtain ⟨hmem, hend, hfresh⟩ := hasSymbol_iff.mp hx
          exact ⟨x, hmem, hend, hfresh, hxname⟩
        · rintro ⟨x, hmem, hend, hfresh, rfl⟩
          exact haug.isWritten_symbolName (hasSymbol_iff.mpr ⟨hmem, hend, hfresh⟩) }

/-- Primed names, of which the second one is free. -/
def primedRules : List RuleDef := [⟨"S", ["S'", "S"]⟩, ⟨"A", ["S'''"]⟩, ⟨"S", []⟩]

/-- The fresh start symbol gets the free name between those that are taken. -/
theorem namesSymbols_primedRules : ⟨"S", ["S'", "S"]⟩ ∈ primedRules.head? ∧
    PrimesWhileTaken (IsWritten primedRules) ("S" ++ "'") "S''" ∧
    ∃ g, Grammar.augment primedRules = .ok g ∧ g.NamesSymbols primedRules ∧
      g.symbolName (.nonterminal .freshStart) = "S''" := by
  obtain ⟨g, hg⟩ : ∃ g, Grammar.augment primedRules = .ok g :=
    exists_augment (by decide) (by unfold RuleDef.IsValid; decide) (by decide) (by decide)
  obtain ⟨hsearch, hnames⟩ := namesSymbols primedRules
  obtain ⟨k, hk, hends⟩ := hsearch _ rfl
  have hwritten (name : String) :
      IsWritten primedRules name ↔ name ∈ ["S", "S'", "A", "S'''"] := by
    simp [IsWritten, primedRules, or_comm, or_assoc, or_left_comm]
  have htwo : IsLeast {k | 1 ≤ k ∧ ¬ IsWritten primedRules (primed "S" k)} 2 := by
    simp only [hwritten]
    refine ⟨by decide, fun j hj => ?_⟩
    by_contra hlt
    obtain rfl : j = 1 := by have := hj.1; omega
    exact hj.2 (by decide)
  obtain rfl : k = 2 := hk.unique htwo
  obtain ⟨-, first, hfirst, k, hk, hname⟩ := (hnames g hg).freshStart
  obtain rfl : _ = first := Option.some.inj hfirst
  obtain rfl : k = 2 := hk.unique htwo
  exact ⟨rfl, (hends "S''").mpr rfl, g, hg, hnames g hg, hname⟩

end Grammar

end ShiftReduce
