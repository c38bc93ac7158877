import ShiftReduce.Proofs.CanonicalCollection
import ShiftReduce.Proofs.Evaluation

/-! # Accessing symbols

Items with something before the marker get into a state over a transition, and all others are added by
closure. So the core of a goto set, which is what has something before the marker, is the kernel that was
closed (`ItemSet.core_goto`), and the goto set is its closure again (`ItemSet.closure_core_goto`). All that
leads to a state is therefore read off any item of its core: the symbol before the marker
(`Automaton.isAccessedBy_of_mem_transitions`). Only state `0` has no core, and nothing leads there
(`Automaton.hasAccessingSymbols`). -/

namespace ShiftReduce

/-! ## The symbol before the marker -/

namespace Item

/-- The symbol before the marker, if the rule exists and the marker is not in front. -/
def previous? (g : Grammar) (i : Item) : Option Symbol :=
  if i.marker = 0 then none else (g.rule? i.rule).bind (·.right[i.marker - 1]?)

/-- Behind the marker of an advanced item stands what the item expected. -/
@[simp] theorem previous?_advance (g : Grammar) (i : Item) : i.advance.previous? g = i.next? g := by
  simp [previous?, next?]

end Item

/-! ## Cores -/

namespace ItemSet

variable {g : Grammar} {s : ItemSet} {x : Symbol} {i : Item}

/-- The items with something before the marker. -/
def core (s : ItemSet) : ItemSet := s.filter fun i => decide (0 < i.marker)

/-- The core of a set has its items with the marker past the front. -/
@[simp] theorem mem_core : i ∈ s.core ↔ i ∈ s ∧ 0 < i.marker := by simp [core]

/-- In a kernel every marker is past the front. -/
theorem marker_pos_of_mem_kernel (h : i ∈ s.kernel g x) : 0 < i.marker := by
  obtain ⟨j, -, -, rfl⟩ := mem_kernel.mp h
  simp

/-- All items of a kernel have the symbol before the marker. -/
theorem previous?_of_mem_kernel (h : i ∈ s.kernel g x) : i.previous? g = some x := by
  obtain ⟨j, -, hnext, rfl⟩ := mem_kernel.mp h
  rw [Item.previous?_advance, hnext]

/-- **The core of a goto set is its kernel:** what closure adds has nothing before the marker. -/
theorem core_goto (s : ItemSet) (x : Symbol) : (s.goto g x).core = s.kernel g x := by
  refine ItemSet.ext fun i => ?_
  rw [mem_core, goto_eq, mem_closure]
  constructor
  · rintro ⟨hi | ⟨hzero, -⟩, hpos⟩
    · exact hi
    · omega
  · exact fun hi => ⟨Or.inl hi, marker_pos_of_mem_kernel hi⟩

/-- **A goto set is the closure of its core.** -/
theorem closure_core_goto (s : ItemSet) (x : Symbol) : (s.goto g x).core.closure g = s.goto g x := by
  rw [core_goto, goto_eq]

/-- What the closure of a core adds is what has nothing before the marker. -/
theorem mem_closure_core_diff (h : s.core.closure g = s) :
    i ∈ s ∧ i.marker = 0 ↔ i ∈ s.core.closure g ∧ i ∉ s.core := by
  rw [h, mem_core]
  constructor
  · exact fun ⟨hi, hzero⟩ => ⟨hi, fun hcore => by omega⟩
  · exact fun ⟨hi, hcore⟩ => ⟨hi, Nat.eq_zero_of_not_pos fun hpos => hcore ⟨hi, hpos⟩⟩

end ItemSet

/-! ## What leads to a state -/

namespace Automaton

variable {g : Grammar} {i j : Nat} {s : State} {x : Symbol}

/-- A state is accessed by a symbol: on each way there the symbol is read last. -/
structure IsAccessedBy (a : Automaton) (g : Grammar) (i : Nat) (x : Symbol) : Prop where
  /-- a transition leads there -/
  exists_transition : ∃ e ∈ a.transitions, e.target = i
  /-- all transitions that lead there are on the symbol -/
  symbol_eq : ∀ e ∈ a.transitions, e.target = i → e.symbol = x
  /-- all items with something before the marker have the symbol there -/
  previous?_eq : ∀ item, a.HasItem i item → 0 < item.marker → item.previous? g = some x
  /-- there is such an item -/
  exists_item : ∃ item, a.HasItem i item ∧ 0 < item.marker

/-- A state is accessed by one symbol at most. -/
theorem IsAccessedBy.unique {a : Automaton} {y : Symbol} (hx : a.IsAccessedBy g i x)
    (hy : a.IsAccessedBy g i y) : x = y := by
  obtain ⟨item, hitem, hpos⟩ := hx.exists_item
  have hprevious := hx.previous?_eq item hitem hpos
  rw [hy.previous?_eq item hitem hpos] at hprevious
  exact (Option.some.inj hprevious).symm

/-- A transition leads to every state but the first one. -/
theorem exists_mem_transitions (wf : g.WellFormed) (hs : (ofGrammar g).state? i = some s)
    (hi : i ≠ 0) : ∃ e ∈ (ofGrammar g).transitions, e.target = i := by
  rcases Relation.ReflTransGen.cases_tail (reaches_state wf hs) with rfl | ⟨k, -, x, hx⟩
  · exact absurd rfl hi
  · exact ⟨_, hx, rfl⟩

/-- The items of a state behind a transition are a goto set. -/
theorem items_eq_goto (wf : g.WellFormed) (hs : (ofGrammar g).state? i = some s) {e : Transition}
    (he : e ∈ (ofGrammar g).transitions) (htarget : e.target = i) :
    ∃ s₀, (ofGrammar g).state? e.source = some s₀ ∧ (e.symbol, i) ∈ s₀.edges ∧
      s.items = s₀.items.goto g e.symbol := by
  obtain ⟨s₀, hs₀, hedge⟩ := mem_transitions.mp he
  rw [htarget] at hedge
  obtain ⟨s', hs', hgoto⟩ := exists_of_mem_edges wf hs₀ hedge
  rw [Option.some.inj (hs.symm.trans hs')]
  exact ⟨s₀, hs₀, hedge, hgoto⟩

/-- The items of every state but the first one are a goto set. -/
theorem exists_items_eq_goto (wf : g.WellFormed) (hs : (ofGrammar g).state? i = some s) (hi : i ≠ 0) :
    ∃ s₀ x, s.items = ItemSet.goto g s₀ x := by
  obtain ⟨e, he, htarget⟩ := exists_mem_transitions wf hs hi
  obtain ⟨s₀, -, -, hgoto⟩ := items_eq_goto wf hs he htarget
  exact ⟨_, _, hgoto⟩

/-- **Every state but the first one is the closure of its core.** -/
theorem closure_core (wf : g.WellFormed) (hs : (ofGrammar g).state? i = some s) (hi : i ≠ 0) :
    s.items.core.closure g = s.items := by
  obtain ⟨s₀, x, hgoto⟩ := exists_items_eq_goto wf hs hi
  rw [hgoto]
  exact ItemSet.closure_core_goto s₀ x

/-- **A transition accesses its target by its symbol.** -/
theorem isAccessedBy_of_mem_transitions (wf : g.WellFormed) {e : Transition}
    (he : e ∈ (ofGrammar g).transitions) : (ofGrammar g).IsAccessedBy g e.target e.symbol := by
  obtain ⟨s₀, hs₀, hedge⟩ := mem_transitions.mp he
  obtain ⟨s, hs, hgoto⟩ := exists_of_mem_edges wf hs₀ hedge
  -- all that has something before the marker comes from the kernel
  have hkernel {item : Item} : (ofGrammar g).HasItem e.target item ∧ 0 < item.marker ↔
      item ∈ s₀.items.kernel g e.symbol := by
    rw [← ItemSet.core_goto, ← hgoto, ItemSet.mem_core]
    exact and_congr_left fun _ => ⟨fun h => h.mem_items hs, fun h => ⟨s, hs, h⟩⟩
  constructor
  case exists_transition => exact ⟨e, he, rfl⟩
  case symbol_eq =>
    intro e' he' htarget
    obtain ⟨s₁, hs₁, hedge', -⟩ := items_eq_goto wf hs he' htarget
    exact symbol_unique wf hs₁ hedge' hs₀ hedge
  case previous?_eq =>
    exact fun item hitem hpos => ItemSet.previous?_of_mem_kernel (hkernel.mp ⟨hitem, hpos⟩)
  case exists_item =>
    have hx : e.symbol ∈ s₀.items.expected g := by
      rw [← edges_keys wf hs₀]
      exact List.mem_map_of_mem (f := (·.1)) hedge
    obtain ⟨item, hitem, hnext⟩ := ItemSet.mem_expected.mp hx
    exact ⟨item.advance, hkernel.mpr (ItemSet.mem_kernel.mpr ⟨item, hitem, hnext, rfl⟩)⟩

/-- Every state but the first one is accessed by one symbol. -/
theorem existsUnique_isAccessedBy (wf : g.WellFormed) (hs : (ofGrammar g).state? i = some s)
    (hi : i ≠ 0) : ∃! x, (ofGrammar g).IsAccessedBy g i x := by
  obtain ⟨e, he, rfl⟩ := exists_mem_transitions wf hs hi
  have haccessed := isAccessedBy_of_mem_transitions wf he
  exact ⟨e.symbol, haccessed, fun y hy => hy.unique haccessed⟩

/-- **Just state `0` has no core.** -/
theorem forall_marker_eq_zero_iff (wf : g.WellFormed) (hs : (ofGrammar g).state? i = some s) :
    (∀ item ∈ s.items, item.marker = 0) ↔ i = 0 := by
  constructor
  · intro h
    by_contra hi
    obtain ⟨e, he, rfl⟩ := exists_mem_transitions wf hs hi
    obtain ⟨item, hitem, hpos⟩ := (isAccessedBy_of_mem_transitions wf he).exists_item
    have := h item (hitem.mem_items hs)
    omega
  · rintro rfl item hitem
    obtain ⟨s', hs', hstart⟩ := exists_state?_zero wf
    rw [Option.some.inj (hs.symm.trans hs'), hstart] at hitem
    exact marker_of_mem_startItems hitem

/-- What tells the states of an automaton how they are entered. -/
structure HasAccessingSymbols (a : Automaton) (g : Grammar) : Prop where
  /-- there is a first state, with the items from which everything starts -/
  exists_zero : ∃ s, a.state? 0 = some s ∧ s.items = startItems g
  /-- every state but the first one is entered -/
  entered_iff : ∀ i s, a.state? i = some s → ((∃ e ∈ a.transitions, e.target = i) ↔ i ≠ 0)
  /-- a state that is entered is accessed by one symbol -/
  accessed : ∀ i s, a.state? i = some s → i ≠ 0 → ∃! x, a.IsAccessedBy g i x
  /-- it is the closure of its items with something before the marker -/
  closure_core : ∀ i s, a.state? i = some s → i ≠ 0 → s.items.core.closure g = s.items
  /-- its items with nothing before the marker are those that this closure adds -/
  added_iff : ∀ i s, a.state? i = some s → i ≠ 0 → ∀ item,
    item ∈ s.items ∧ item.marker = 0 ↔ item ∈ s.items.core.closure g ∧ item ∉ s.items.core
  /-- the first state is the only one in which all items have nothing before the marker -/
  eq_zero_iff : ∀ i s, a.state? i = some s → ((∀ item ∈ s.items, item.marker = 0) ↔ i = 0)

/-- **Every state has one accessing symbol.** With no more than `2 ^ 32` states, the numbers are those that a
counter of `32` bits hands out (`Assembly.HoldsAutomaton`). -/
theorem hasAccessingSymbols {defs : List RuleDef} {g : Grammar} (h : Grammar.augment defs = .ok g) :
    (ofGrammar g).HasAccessingSymbols g := by
  have wf := Grammar.wellFormed_of_augment h
  constructor
  case exists_zero => exact exists_state?_zero wf
  case entered_iff =>
    intro i s hs
    refine ⟨?_, exists_mem_transitions wf hs⟩
    rintro ⟨e, he, rfl⟩ hzero
    -- an item of the target has something before the marker, and none in state `0` has
    obtain ⟨item, hitem, hpos⟩ := (isAccessedBy_of_mem_transitions wf he).exists_item
    have := (forall_marker_eq_zero_iff wf hs).mpr hzero item (hitem.mem_items hs)
    omega
  case accessed => exact fun i s hs hi => existsUnique_isAccessedBy wf hs hi
  case closure_core => exact fun i s hs hi => closure_core wf hs hi
  case added_iff =>
    exact fun i s hs hi item => ItemSet.mem_closure_core_diff (closure_core wf hs hi)
  case eq_zero_iff => exact fun i s hs => forall_marker_eq_zero_iff wf hs

/-- Two ways to begin that go on alike, with a nonterminal that is expanded behind each of them and a rule
that comes twice. -/
def mergedRules : List RuleDef :=
  [⟨"S", ["a", "A"]⟩, ⟨"S", ["b", "A"]⟩, ⟨"A", ["c", "A"]⟩, ⟨"A", []⟩, ⟨"A", ["c", "A"]⟩]

/-- The rules by number. -/
theorem ofDefs_mergedRules : Grammar.ofDefs mergedRules =
    .ofNames ["$", "a", "b", "c"] ["", "S", "A"] (by decide) (by decide)
      [⟨⟨1⟩, #[.terminal ⟨1⟩, .nonterminal ⟨2⟩]⟩, ⟨⟨1⟩, #[.terminal ⟨2⟩, .nonterminal ⟨2⟩]⟩,
        ⟨⟨2⟩, #[.terminal ⟨3⟩, .nonterminal ⟨2⟩]⟩, ⟨⟨2⟩, #[]⟩,
        ⟨⟨2⟩, #[.terminal ⟨3⟩, .nonterminal ⟨2⟩]⟩] := by rfl

/-- State `5` is entered from three states, one of which it is itself, and always on the same symbol. -/
theorem hasAccessingSymbols_mergedRules : ∃ g, Grammar.augment mergedRules = .ok g ∧
    (ofGrammar g).HasAccessingSymbols g ∧
    ((ofGrammar g).transitions.filter fun e => e.target = 5) =
      [⟨2, 5, .terminal ⟨3⟩⟩, ⟨3, 5, .terminal ⟨3⟩⟩, ⟨5, 5, .terminal ⟨3⟩⟩] ∧
    (ofGrammar g).IsAccessedBy g 5 (.terminal ⟨3⟩) := by
  obtain ⟨t, ht, -, hautomaton, -⟩ := Tables.exists_of_valid mergedRules (by decide)
    (by unfold RuleDef.IsValid; decide) (by decide) (by decide)
  obtain ⟨g, hg, rfl⟩ := Tables.ofRules_eq_ok.mp ht
  have hautomaton : ofGrammar g = (Tables.listed (.ofDefs mergedRules)).automaton := hautomaton
  have hentered : ((ofGrammar g).transitions.filter fun e => e.target = 5) =
      [⟨2, 5, .terminal ⟨3⟩⟩, ⟨3, 5, .terminal ⟨3⟩⟩, ⟨5, 5, .terminal ⟨3⟩⟩] := by
    rw [hautomaton, ofDefs_mergedRules]
    cbv
  have haccessing := hasAccessingSymbols hg
  have hmem : ⟨2, 5, .terminal ⟨3⟩⟩ ∈ (ofGrammar g).transitions :=
    List.mem_of_mem_filter (hentered ▸ List.mem_cons_self ..)
  exact ⟨g, hg, haccessing, hentered,
    isAccessedBy_of_mem_transitions (Grammar.wellFormed_of_augment hg) hmem⟩

end Automaton

end ShiftReduce
