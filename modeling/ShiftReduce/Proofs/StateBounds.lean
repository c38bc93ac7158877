import Mathlib.Algebra.Order.BigOperators.Group.Finset
import ShiftReduce.Proofs.AccessingSymbols
import ShiftReduce.Proofs.CheckedNumbers
import ShiftReduce.Proofs.Safety
import ShiftReduce.Proofs.SymbolNames

/-! # How many states there can be

All states but the first one are told by their cores (`Automaton.closure_core`), and all items of a core have
the same symbol before the marker. So a symbol is read on the way to no more states than there are non-empty
sets of items behind it, and the number of states is at most the sum of these numbers over the symbols, and
one more (`Automaton.size_le_sum`). When no symbol is written often, this is less than `2 ^ 32`
(`Automaton.size_lt_of_card_itemsBehind_le`). -/

namespace ShiftReduce

namespace Grammar

/-- The items of rules that are not superseded with a symbol before the marker. There is one for each place
where such a rule has the symbol. -/
def itemsBehind (g : Grammar) (x : Symbol) : Finset Item :=
  (Automaton.allItems g).toFinset.filter fun i => i.previous? g = some x

/-- The items behind a symbol are those with it right before the marker. -/
@[simp] theorem mem_itemsBehind {g : Grammar} {x : Symbol} {i : Item} :
    i ∈ g.itemsBehind x ↔ i ∈ Automaton.allItems g ∧ i.previous? g = some x := by
  simp [itemsBehind]

/-- There are no more items behind a symbol than items of rules. -/
theorem card_itemsBehind_le (g : Grammar) (x : Symbol) :
    (g.itemsBehind x).card ≤ Automaton.itemCount g := by
  rw [← Automaton.length_allItems]
  exact (Finset.card_filter_le _ _).trans (List.toFinset_card_le _)

/-- **There is room for less than `65564` symbols.** -/
theorem length_allSymbols_le {defs : List RuleDef} {g : Grammar} (h : Grammar.augment defs = .ok g) :
    g.allSymbols.length ≤ 65563 := by
  have haug := isAugmentation_of_augment h
  have hterminals : g.terminals.size ≤ capacity + 1 := by
    rw [← Numbering.length_toList, haug.terminals]
    exact (length_le_of_augment h).1
  have hnonterminals : g.nonterminals.size ≤ 27 := by
    -- all names but the first one are single capitals
    have hsub : g.nonterminals.toList ⊆ startName defs :: capitals := by
      rw [haug.nonterminals, haug.nonterminalNames_eq]
      refine List.cons_subset_cons _ fun name hname => ?_
      by_contra hcapital
      have hclass : isNonterminalName name = false := by
        rw [← Bool.not_eq_true, isNonterminalName_iff]
        exact fun h => hcapital h.mem_capitals
      exact not_mem_writtenNonterminals haug.valid hclass hname
    rw [← Numbering.length_toList]
    exact (List.subperm_of_subset g.nonterminals.nodup_toList hsub).length_le
  have hcapacity : capacity = 65535 := rfl
  simp [allSymbols, allTerminals, allNonterminals]
  omega

end Grammar

namespace Automaton

variable {g : Grammar}

/-- The core of a state. -/
def coreAt (g : Grammar) (i : Nat) : Finset Item :=
  (((ofGrammar g).state? i).map fun s => s.items.core.items.toFinset).getD ∅

/-- The core at a number is the one of the state with this number. -/
theorem coreAt_eq {i : Nat} {s : State} (hs : (ofGrammar g).state? i = some s) :
    coreAt g i = s.items.core.items.toFinset := by
  simp [coreAt, hs]

/-- Every number below the count is a state's. -/
theorem exists_state? {a : Automaton} {i : Nat} (hi : i < a.states.size) : ∃ s, a.state? i = some s :=
  ⟨_, Array.getElem?_eq_getElem hi⟩

/-- **States but the first one have different cores.** -/
theorem injOn_coreAt (wf : g.WellFormed) :
    Set.InjOn (coreAt g) ((Finset.range (ofGrammar g).states.size).erase 0) := by
  intro i hi j hj heq
  obtain ⟨hi, hilt⟩ := Finset.mem_erase.mp hi
  obtain ⟨hj, hjlt⟩ := Finset.mem_erase.mp hj
  obtain ⟨s, hs⟩ := exists_state? (Finset.mem_range.mp hilt)
  obtain ⟨s', hs'⟩ := exists_state? (Finset.mem_range.mp hjlt)
  rw [coreAt_eq hs, coreAt_eq hs'] at heq
  have hcore : s.items.core = s'.items.core := by
    refine ItemSet.ext fun item => ?_
    have hmem := congrArg (item ∈ ·) heq
    simpa [← ItemSet.mem_def] using hmem
  apply state?_inj wf hs hs'
  rw [← closure_core wf hs hi, hcore, closure_core wf hs' hj]

/-- **A core is a set of items behind one symbol, and not empty.** -/
theorem exists_coreAt_mem (wf : g.WellFormed) {i : Nat} (hi : i ≠ 0)
    (hlt : i < (ofGrammar g).states.size) :
    ∃ x ∈ g.allSymbols, coreAt g i ∈ (g.itemsBehind x).powerset.erase ∅ := by
  obtain ⟨s, hs⟩ := exists_state? hlt
  obtain ⟨e, he, rfl⟩ := exists_mem_transitions wf hs hi
  have haccessed := isAccessedBy_of_mem_transitions wf he
  refine ⟨e.symbol, ?_, ?_⟩
  · obtain ⟨s₀, hs₀, hedge⟩ := mem_transitions.mp he
    exact (Grammar.hasSymbol_iff.mp (Tables.exists_of_mem_edges wf hs₀ hedge).1).1
  · rw [coreAt_eq hs, Finset.mem_erase, Finset.mem_powerset]
    constructor
    · obtain ⟨item, hitem, hpos⟩ := haccessed.exists_item
      refine Finset.ne_empty_of_mem (a := item) ?_
      rw [List.mem_toFinset, ← ItemSet.mem_def, ItemSet.mem_core]
      exact ⟨hitem.mem_items hs, hpos⟩
    · intro item hitem
      rw [List.mem_toFinset, ← ItemSet.mem_def, ItemSet.mem_core] at hitem
      obtain ⟨hitem, hpos⟩ := hitem
      rw [Grammar.mem_itemsBehind]
      exact ⟨mem_allItems_of_mem_itemSets wf _ (mem_itemSets_of_state? wf hs).1 item hitem,
        haccessed.previous?_eq item ⟨s, hs, hitem⟩ hpos⟩

/-- **The number of states is bounded by the sets of items behind a symbol.** -/
theorem size_le_sum (wf : g.WellFormed) : (ofGrammar g).states.size ≤
    1 + ∑ x ∈ g.allSymbols.toFinset, (2 ^ (g.itemsBehind x).card - 1) := by
  have hcores : Set.MapsTo (coreAt g) ((Finset.range (ofGrammar g).states.size).erase 0)
      (g.allSymbols.toFinset.biUnion fun x => (g.itemsBehind x).powerset.erase ∅) := by
    intro i hi
    obtain ⟨hi, hlt⟩ := Finset.mem_erase.mp hi
    obtain ⟨x, hx, hcore⟩ := exists_coreAt_mem wf hi (Finset.mem_range.mp hlt)
    exact Finset.mem_biUnion.mpr ⟨x, List.mem_toFinset.mpr hx, hcore⟩
  have hcard := Finset.card_le_card_of_injOn _ hcores (injOn_coreAt wf)
  calc (ofGrammar g).states.size
      ≤ 1 + ((Finset.range (ofGrammar g).states.size).erase 0).card := by
        have := Finset.pred_card_le_card_erase (s := Finset.range (ofGrammar g).states.size) (a := 0)
        rw [Finset.card_range] at this
        omega
    _ ≤ 1 + (g.allSymbols.toFinset.biUnion fun x => (g.itemsBehind x).powerset.erase ∅).card := by
        omega
    _ ≤ 1 + ∑ x ∈ g.allSymbols.toFinset, ((g.itemsBehind x).powerset.erase ∅).card :=
        Nat.add_le_add_left Finset.card_biUnion_le 1
    _ = 1 + ∑ x ∈ g.allSymbols.toFinset, (2 ^ (g.itemsBehind x).card - 1) := by
        congr 1
        refine Finset.sum_congr rfl fun x _ => ?_
        rw [Finset.card_erase_of_mem (Finset.empty_mem_powerset _), Finset.card_powerset]

/-- **There are less than `2 ^ 32` states when no symbol is written more than `15` times.** -/
theorem size_lt_of_card_itemsBehind_le {defs : List RuleDef} (h : Grammar.augment defs = .ok g)
    (hfew : ∀ x ∈ g.allSymbols, (g.itemsBehind x).card ≤ 15) :
    (ofGrammar g).states.size < 2 ^ 32 := by
  have hsum : ∑ x ∈ g.allSymbols.toFinset, (2 ^ (g.itemsBehind x).card - 1) ≤
      g.allSymbols.toFinset.card * (2 ^ 15 - 1) := by
    refine Finset.sum_le_card_nsmul _ _ _ fun x hx => ?_
    exact Nat.sub_le_sub_right
      (Nat.pow_le_pow_right (by decide) (hfew x (List.mem_toFinset.mp hx))) 1
  have hsize := size_le_sum (Grammar.wellFormed_of_augment h)
  have hcard := (List.toFinset_card_le g.allSymbols).trans (Grammar.length_allSymbols_le h)
  omega

end Automaton

end ShiftReduce
