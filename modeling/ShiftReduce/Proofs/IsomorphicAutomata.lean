import ShiftReduce.Proofs.CanonicalCollection
import ShiftReduce.Proofs.ConflictCounts
import ShiftReduce.Proofs.Isomorphism

/-! # Automata and tables under two numberings

The automaton of a grammar that is another one under other numbers has the same states under other
numbers: the state of an item set gets the number of the state of the same items
(`Renumbering.IsIso.exists_state?`). It offers the same actions there
(`Renumbering.IsIso.mem_candidates`), though they are written in another order, so that another one can
be lost where they meet. As many are lost in all (`Renumbering.IsIso.length_conflicts`), and when none is,
the cells agree (`Renumbering.IsIso.action?_eq`). -/

namespace ShiftReduce

/-- There are as many states as item sets. -/
theorem Automaton.size_states {g : Grammar} (wf : g.WellFormed) :
    (ofGrammar g).states.size = (itemSets g).length := by
  rw [← Array.length_toList, toList_states wf, List.length_map]

/-- The state of an item set has the place of the item set as its number. -/
theorem Automaton.state?_idxOf {g : Grammar} (wf : g.WellFormed) {s : ItemSet}
    (hs : s ∈ itemSets g) :
    (ofGrammar g).state? ((itemSets g).idxOf s) = some (stateOf g (itemSets g) s) := by
  rw [state?_ofGrammar wf, List.getElem?_idxOf hs, Option.map_some]

/-- The rule that a state reduces has no later copy. -/
theorem Automaton.exists_usesRule_of_reduce {g : Grammar} (wf : g.WellFormed) {follow : FollowSets}
    {i k : Nat} {s : State} (hs : (ofGrammar g).state? i = some s) {t : Terminal}
    (hmem : (t, .reduce k) ∈ s.candidates g follow) : ∃ r, g.UsesRule k r := by
  rcases State.mem_candidates.mp hmem with ⟨j, hj, -⟩ | ⟨item, hitem, -, hmem⟩
  · cases hj
  · rcases mem_reductionsOf.mp hmem with ⟨-, -, hk⟩ | ⟨-, hk, -⟩
    · cases hk
    · obtain rfl := Action.reduce.inj hk
      obtain ⟨hlater, r, hr, -⟩ :=
        mem_allItems.mp (mem_allItems_of_mem_itemSets wf _ (mem_itemSets_of_state? wf hs).1 item hitem)
      exact ⟨r, hr, hlater⟩

namespace Renumbering

/-- The number that a state gets: that of the state of the same items. -/
def stateNumber (ρ : Renumbering) (g g' : Grammar) : Nat → Nat :=
  renumber ((Automaton.itemSets g).map ρ.items) (Automaton.itemSets g')

/-- A state is another one under other numbers for items, symbols and states. -/
structure SameState (ρ : Renumbering) (σ : Nat → Nat) (s s' : State) : Prop where
  /-- it has the same items -/
  items : s'.items = ρ.items s.items
  /-- the same symbols lead to the same states, in any order -/
  edges : ∀ x' j', (x', j') ∈ s'.edges ↔ ∃ x j, (x, j) ∈ s.edges ∧ ρ.symbol x = x' ∧ σ j = j'

/-- An action by the other numbers of states and rules. -/
def action (ρ : Renumbering) (σ : Nat → Nat) : Action → Action
  | .shift j => .shift (σ j)
  | .reduce k => .reduce (ρ.rule k)
  | .accept => .accept

namespace IsIso

variable {ρ : Renumbering} {g g' : Grammar}

/-! ## States -/

/-- The renumbered item sets are different. -/
theorem nodup_map_itemSets (h : ρ.IsIso g g') : ((Automaton.itemSets g).map ρ.items).Nodup :=
  List.Nodup.map_on (fun s hs t ht =>
    h.items_inj (h.isLive_of_mem_itemSets s hs) (h.isLive_of_mem_itemSets t ht))
    Automaton.nodup_itemSets

/-- **The item sets of the second grammar are the renumbered ones of the first.** -/
theorem mem_map_itemSets (h : ρ.IsIso g g') (s' : ItemSet) :
    s' ∈ (Automaton.itemSets g).map ρ.items ↔ s' ∈ Automaton.itemSets g' := by
  rw [List.mem_map, h.mem_itemSets_iff]

/-- The item sets are found in another order. -/
theorem perm_itemSets (h : ρ.IsIso g g') :
    (Automaton.itemSets g').Perm ((Automaton.itemSets g).map ρ.items) :=
  (List.perm_ext_iff_of_nodup Automaton.nodup_itemSets h.nodup_map_itemSets).mpr fun s' =>
    (h.mem_map_itemSets s').symm

/-- A state gets the number of its renumbered items. -/
theorem stateNumber_idxOf (h : ρ.IsIso g g') {s : ItemSet} (hs : s ∈ Automaton.itemSets g) :
    ρ.stateNumber g g' ((Automaton.itemSets g).idxOf s) =
      (Automaton.itemSets g').idxOf (ρ.items s) := by
  have hplace : (Automaton.itemSets g).idxOf s =
      ((Automaton.itemSets g).map ρ.items).idxOf (ρ.items s) :=
    (idxOf_map fun t ht =>
      h.items_inj (h.isLive_of_mem_itemSets t ht) (h.isLive_of_mem_itemSets s hs)).symm
  rw [hplace]
  exact renumber_idxOf (List.mem_map_of_mem hs)

/-- The start state keeps its number. -/
theorem stateNumber_zero (h : ρ.IsIso g g') : ρ.stateNumber g g' 0 = 0 := by
  have hfirst : ((Automaton.itemSets g).map ρ.items)[0]? = some (Automaton.startItems g') := by
    rw [List.getElem?_map, Automaton.getElem?_itemSets_zero, h.startItems_eq]
    rfl
  exact (renumber_of_getElem? hfirst).trans
    (idxOf_of_getElem? Automaton.nodup_itemSets Automaton.getElem?_itemSets_zero)

/-- Different states get different numbers. -/
theorem stateNumber_injective (h : ρ.IsIso g g') : Function.Injective (ρ.stateNumber g g') :=
  renumber_injective h.nodup_map_itemSets fun s' => (h.mem_map_itemSets s').mp

/-- **The states are in one to one correspondence.** -/
theorem bijOn_stateNumber (h : ρ.IsIso g g') :
    Set.BijOn (ρ.stateNumber g g') (Set.Iio (Automaton.ofGrammar g).states.size)
      (Set.Iio (Automaton.ofGrammar g').states.size) := by
  have hbij := bijOn_renumber h.nodup_map_itemSets Automaton.nodup_itemSets h.mem_map_itemSets
  rwa [List.length_map, ← Automaton.size_states h.wf, ← Automaton.size_states h.wf'] at hbij

/-- The state of an item set is the state of the same items. -/
theorem sameState_stateOf (h : ρ.IsIso g g') {s : ItemSet} (hs : s ∈ Automaton.itemSets g) :
    ρ.SameState (ρ.stateNumber g g') (Automaton.stateOf g (Automaton.itemSets g) s)
      (Automaton.stateOf g' (Automaton.itemSets g') (ρ.items s)) where
  items := rfl
  edges := by
    intro x' j'
    have hlive := h.isLive_of_mem_itemSets s hs
    have htarget : ∀ x ∈ s.expected g,
        ρ.stateNumber g g' ((Automaton.itemSets g).idxOf (s.goto g x)) =
          (Automaton.itemSets g').idxOf ((ρ.items s).goto g' (ρ.symbol x)) := fun x hx => by
      rw [h.stateNumber_idxOf (Automaton.goto_mem_itemSets h.wf hs hx), h.goto_items hlive]
    unfold Automaton.stateOf
    simp only [List.mem_map, Prod.mk.injEq, h.mem_expected hlive]
    constructor
    · rintro ⟨_, ⟨x, hx, rfl⟩, rfl, rfl⟩
      exact ⟨x, _, ⟨x, hx, rfl, rfl⟩, rfl, htarget x hx⟩
    · rintro ⟨_, _, ⟨x, hx, rfl, rfl⟩, rfl, rfl⟩
      exact ⟨_, ⟨x, hx, rfl⟩, rfl, (htarget x hx).symm⟩

/-- **The state with the other number is the same state.** -/
theorem exists_state? (h : ρ.IsIso g g') {i : Nat} {s : State}
    (hs : (Automaton.ofGrammar g).state? i = some s) :
    ∃ s', (Automaton.ofGrammar g').state? (ρ.stateNumber g g' i) = some s' ∧
      ρ.SameState (ρ.stateNumber g g') s s' := by
  rw [Automaton.state?_ofGrammar h.wf, Option.map_eq_some_iff] at hs
  obtain ⟨items, hitems, rfl⟩ := hs
  have hmem := List.mem_of_getElem? hitems
  refine ⟨_, ?_, h.sameState_stateOf hmem⟩
  obtain rfl := idxOf_of_getElem? Automaton.nodup_itemSets hitems
  rw [h.stateNumber_idxOf hmem]
  exact Automaton.state?_idxOf h.wf' (h.mem_itemSets_iff.mpr ⟨items, hmem, rfl⟩)

/-- A state has the same items, in another order. -/
theorem perm_items (h : ρ.IsIso g g') {s : ItemSet} (hs : s ∈ Automaton.itemSets g) :
    (ρ.items s).items.Perm (s.items.map ρ.item) := by
  have hlive := h.isLive_of_mem_itemSets s hs
  have hnodup : (s.items.map ρ.item).Nodup :=
    List.Nodup.map_on (fun i hi j hj => h.item_inj (hlive i hi) (hlive j hj)) s.nodup_items
  exact (List.perm_ext_iff_of_nodup (ρ.items s).nodup_items hnodup).mpr fun j => ItemSet.mem_ofList

/-! ## Transitions -/

/-- **The transitions are the same,** in another order. -/
theorem perm_transitions (h : ρ.IsIso g g') :
    (Automaton.ofGrammar g').transitions.Perm ((Automaton.ofGrammar g).transitions.map fun t =>
      ⟨ρ.stateNumber g g' t.source, ρ.stateNumber g g' t.target, ρ.symbol t.symbol⟩) := by
  have hnodup : ((Automaton.ofGrammar g).transitions.map fun t => (⟨ρ.stateNumber g g' t.source,
      ρ.stateNumber g g' t.target, ρ.symbol t.symbol⟩ : Transition)).Nodup := by
    refine (Automaton.nodup_transitions h.wf).of_map.map fun t u heq => ?_
    obtain ⟨hsource, htarget, hsymbol⟩ := Transition.mk.inj heq
    cases t
    cases u
    obtain rfl := h.stateNumber_injective hsource
    obtain rfl := h.stateNumber_injective htarget
    obtain rfl := symbol_injective hsymbol
    rfl
  refine (List.perm_ext_iff_of_nodup (Automaton.nodup_transitions h.wf').of_map hnodup).mpr ?_
  rintro ⟨i', j', x'⟩
  rw [Automaton.mem_transitions, List.mem_map]
  constructor
  · rintro ⟨s', hs', hedge⟩
    obtain ⟨i, hi, rfl⟩ := h.bijOn_stateNumber.surjOn (Array.getElem?_eq_some_iff.mp hs').1
    obtain ⟨s'', hs'', hsame⟩ := h.exists_state? (Array.getElem?_eq_getElem hi)
    obtain rfl := Option.some.inj (hs'.symm.trans hs'')
    obtain ⟨x, j, hxj, rfl, rfl⟩ := (hsame.edges x' j').mp hedge
    exact ⟨⟨i, j, x⟩, Automaton.mem_transitions.mpr ⟨_, Array.getElem?_eq_getElem hi, hxj⟩, rfl⟩
  · rintro ⟨⟨i, j, x⟩, ht, heq⟩
    obtain ⟨rfl, rfl, rfl⟩ := Transition.mk.inj heq
    obtain ⟨s, hs, hedge⟩ := Automaton.mem_transitions.mp ht
    obtain ⟨s', hs', hsame⟩ := h.exists_state? hs
    exact ⟨s', hs', (hsame.edges _ _).mpr ⟨x, j, hedge, rfl, rfl⟩⟩

/-! ## Actions -/

section Actions

variable {follow follow' : FollowSets} {s s' : State} {i i' k : Nat} {r : Rule}

/-- Rules that are used get different numbers. -/
theorem rule_inj (h : ρ.IsIso g g') {l : Nat} {r' : Rule} (hk : g.UsesRule k r)
    (hl : g.UsesRule l r') (heq : ρ.rule k = ρ.rule l) : k = l := by
  have hitem : (⟨k, 0⟩ : Item) = ⟨l, 0⟩ := h.item_inj ⟨r, hk, trivial⟩ ⟨r', hl, trivial⟩
    (Item.ext_iff.mpr ⟨heq, rfl⟩)
  exact congrArg Item.rule hitem

/-- Only rule 0 gets the number 0. -/
theorem rule_eq_zero_iff (h : ρ.IsIso g g') (hk : g.UsesRule k r) : ρ.rule k = 0 ↔ k = 0 :=
  ⟨fun heq => h.rule_inj hk h.wf.usesRule_zero (heq.trans h.rule_zero.symm),
    fun heq => heq ▸ h.rule_zero⟩

/-- A renumbered item is complete when the item is. -/
theorem isComplete_item (h : ρ.IsIso g g') {j : Item} (hj : IsLive g (fun _ => True) j) :
    (ρ.item j).isComplete g' = j.isComplete g := by
  obtain ⟨r, hr, -⟩ := hj
  have hr' := h.usesRule _ r hr trivial
  unfold Item.isComplete
  rw [rule_item, hr'.1, hr.1, Option.any_some, Option.any_some, size_ofRule, marker_item]

/-- A rule offers the same reductions. -/
theorem mem_reductionsOf (h : ρ.IsIso g g') (σ : Nat → Nat)
    (hfollow : ρ.SameFollow follow follow')
    (hk : g.UsesRule k r) {t' : Terminal} {a' : Action} :
    (t', a') ∈ reductionsOf g' follow' (ρ.rule k) ↔
      ∃ t a, (t, a) ∈ reductionsOf g follow k ∧ ρ.terminal t = t' ∧ ρ.action σ a = a' := by
  have hk' := h.usesRule k r hk trivial
  simp only [ShiftReduce.mem_reductionsOf, Ne, h.rule_eq_zero_iff hk]
  constructor
  · rintro (⟨hzero, rfl, rfl⟩ | ⟨hzero, rfl, r', hr', hhas⟩)
    · exact ⟨.endOfInput, .accept, Or.inl ⟨hzero, rfl, rfl⟩, h.endOfInput, rfl⟩
    · obtain rfl := Option.some.inj (hk'.1.symm.trans hr')
      obtain ⟨t, ht, rfl⟩ := (hfollow r.left t').mp hhas
      exact ⟨t, .reduce k, Or.inr ⟨hzero, rfl, r, hk.1, ht⟩, rfl, rfl⟩
  · rintro ⟨t, a, ⟨hzero, rfl, rfl⟩ | ⟨hzero, rfl, r₁, hr₁, hhas⟩, rfl, rfl⟩
    · exact Or.inl ⟨hzero, h.endOfInput, rfl⟩
    · obtain rfl := Option.some.inj (hk.1.symm.trans hr₁)
      exact Or.inr ⟨hzero, rfl, _, hk'.1, (hfollow r.left _).mpr ⟨t, hhas, rfl⟩⟩

/-- **The same state offers the same actions.** -/
theorem mem_candidates (h : ρ.IsIso g g') {σ : Nat → Nat}
    (hfollow : ρ.SameFollow follow follow')
    (hs : (Automaton.ofGrammar g).state? i = some s) (hsame : ρ.SameState σ s s') {t' : Terminal}
    {a' : Action} :
    (t', a') ∈ s'.candidates g' follow' ↔
      ∃ t a, (t, a) ∈ s.candidates g follow ∧ ρ.terminal t = t' ∧ ρ.action σ a = a' := by
  have hlive := h.isLive_of_state? hs
  simp only [State.mem_candidates, hsame.items, hsame.edges, mem_items]
  constructor
  · rintro (⟨_, rfl, x, j, hedge, hx, rfl⟩ | ⟨_, ⟨item, hitem, rfl⟩, hcomplete, ha⟩)
    · obtain ⟨t, rfl, rfl⟩ := symbol_eq_terminal.mp hx
      exact ⟨t, .shift j, Or.inl ⟨j, rfl, hedge⟩, rfl, rfl⟩
    · obtain ⟨r, hr, -⟩ := hlive item hitem
      obtain ⟨t, a, hmem, rfl, rfl⟩ := (h.mem_reductionsOf σ hfollow hr).mp ha
      rw [h.isComplete_item (hlive item hitem)] at hcomplete
      exact ⟨t, a, Or.inr ⟨item, hitem, hcomplete, hmem⟩, rfl, rfl⟩
  · rintro ⟨t, a, ⟨j, rfl, hedge⟩ | ⟨item, hitem, hcomplete, ha⟩, rfl, rfl⟩
    · exact Or.inl ⟨σ j, rfl, .terminal t, j, hedge, rfl, rfl⟩
    · obtain ⟨r, hr, -⟩ := hlive item hitem
      refine Or.inr ⟨_, ⟨item, hitem, rfl⟩, ?_, ?_⟩
      · rwa [h.isComplete_item (hlive item hitem)]
      · exact (h.mem_reductionsOf σ hfollow hr).mpr ⟨t, a, ha, rfl, rfl⟩

/-- Different actions of a state stay different. -/
theorem action_inj (h : ρ.IsIso g g') (hs : (Automaton.ofGrammar g).state? i = some s)
    {t u : Terminal} {a b : Action} (ha : (t, a) ∈ s.candidates g follow)
    (hb : (u, b) ∈ s.candidates g follow)
    (heq : ρ.action (ρ.stateNumber g g') a = ρ.action (ρ.stateNumber g g') b) : a = b := by
  cases a with
  | shift j =>
    cases b with
    | shift l => rw [h.stateNumber_injective (Action.shift.inj heq)]
    | reduce l => cases heq
    | accept => cases heq
  | reduce k =>
    cases b with
    | shift l => cases heq
    | reduce l =>
      obtain ⟨r, hr⟩ := Automaton.exists_usesRule_of_reduce h.wf hs ha
      obtain ⟨r', hr'⟩ := Automaton.exists_usesRule_of_reduce h.wf hs hb
      rw [h.rule_inj hr hr' (Action.reduce.inj heq)]
    | accept => cases heq
  | accept =>
    cases b with
    | shift l => cases heq
    | reduce l => cases heq
    | accept => rfl

/-- The actions are offered in another order. -/
theorem perm_candidates (h : ρ.IsIso g g')
    (hfollow : ρ.SameFollow follow follow')
    (hs : (Automaton.ofGrammar g).state? i = some s)
    (hs' : (Automaton.ofGrammar g').state? i' = some s')
    (hsame : ρ.SameState (ρ.stateNumber g g') s s') :
    (s'.candidates g' follow').Perm ((s.candidates g follow).map fun e =>
      (ρ.terminal e.1, ρ.action (ρ.stateNumber g g') e.2)) := by
  have hnodup : ((s.candidates g follow).map fun e =>
      (ρ.terminal e.1, ρ.action (ρ.stateNumber g g') e.2)).Nodup := by
    refine List.Nodup.map_on ?_ (Automaton.nodup_candidates h.wf hs)
    rintro ⟨t, a⟩ ha ⟨u, b⟩ hb heq
    obtain ⟨ht, haction⟩ := Prod.mk.inj heq
    exact Prod.ext (ρ.terminal_injective ht) (h.action_inj hs ha hb haction)
  refine (List.perm_ext_iff_of_nodup (Automaton.nodup_candidates h.wf' hs') hnodup).mpr ?_
  rintro ⟨t', a'⟩
  rw [h.mem_candidates hfollow hs hsame, List.mem_map]
  simp only [Prod.exists, Prod.mk.injEq]

/-! ## Conflicts -/

/-- Corresponding states have the same number of conflicts. -/
theorem excess_eq (h : ρ.IsIso g g')
    (hfollow : ρ.SameFollow follow follow')
    (hs : (Automaton.ofGrammar g).state? i = some s)
    (hs' : (Automaton.ofGrammar g').state? i' = some s')
    (hsame : ρ.SameState (ρ.stateNumber g g') s s') :
    s'.excess g' follow' = s.excess g follow := by
  have hperm := h.perm_candidates hfollow hs hs' hsame
  have hterminals : ((s'.candidates g' follow').map (·.1)).toFinset =
      ((s.candidates g follow).map (·.1)).toFinset.image ρ.terminal := by
    ext t'
    simp only [List.mem_toFinset, Finset.mem_image, List.mem_map, hperm.mem_iff]
    constructor
    · rintro ⟨_, ⟨e, he, rfl⟩, rfl⟩
      exact ⟨_, ⟨e, he, rfl⟩, rfl⟩
    · rintro ⟨_, ⟨e, he, rfl⟩, rfl⟩
      exact ⟨_, ⟨e, he, rfl⟩, rfl⟩
  unfold State.excess
  rw [hperm.length_eq, List.length_map, hterminals,
    Finset.card_image_of_injective _ ρ.terminal_injective]

/-- **As many actions are lost.** -/
theorem length_conflicts (h : ρ.IsIso g g')
    (hfollow : ρ.SameFollow follow follow') :
    (ParseTable.ofAutomaton g' follow' (.ofGrammar g')).conflicts.length =
      (ParseTable.ofAutomaton g follow (.ofGrammar g)).conflicts.length := by
  rw [ParseTable.length_conflicts h.wf', ParseTable.length_conflicts h.wf,
    Automaton.toList_states h.wf', Automaton.toList_states h.wf, List.map_map, List.map_map,
    (h.perm_itemSets.map _).sum_eq, List.map_map]
  refine congrArg List.sum (List.map_congr_left fun s hs => ?_)
  have hs' : ρ.items s ∈ Automaton.itemSets g' := h.mem_itemSets_iff.mpr ⟨s, hs, rfl⟩
  exact h.excess_eq hfollow (Automaton.state?_idxOf h.wf hs) (Automaton.state?_idxOf h.wf' hs')
    (h.sameState_stateOf hs)

/-- **The tables of both grammars are without conflicts, or neither's are.** -/
theorem isConsistent_eq (h : ρ.IsIso g g')
    (hfollow : ρ.SameFollow follow follow') :
    (ParseTable.ofAutomaton g' follow' (.ofGrammar g')).isConsistent =
      (ParseTable.ofAutomaton g follow (.ofGrammar g)).isConsistent := by
  unfold ParseTable.isConsistent
  rw [Bool.eq_iff_iff, List.isEmpty_iff_length_eq_zero, List.isEmpty_iff_length_eq_zero,
    h.length_conflicts hfollow]

/-- **Without conflicts the cells hold the same actions.** -/
theorem action?_eq (h : ρ.IsIso g g')
    (hfollow : ρ.SameFollow follow follow')
    (hconsistent : (ParseTable.ofAutomaton g follow (.ofGrammar g)).isConsistent = true)
    (hs : (Automaton.ofGrammar g).state? i = some s) (t : Terminal) :
    (ParseTable.ofAutomaton g' follow' (.ofGrammar g')).action? (ρ.stateNumber g g' i)
        (ρ.terminal t) =
      ((ParseTable.ofAutomaton g follow (.ofGrammar g)).action? i t).map
        (ρ.action (ρ.stateNumber g g')) := by
  have hconsistent' := (h.isConsistent_eq hfollow).trans hconsistent
  obtain ⟨s', hs', hsame⟩ := h.exists_state? hs
  cases haction : (ParseTable.ofAutomaton g follow (.ofGrammar g)).action? i t with
  | none =>
    rw [Option.map_none, Option.eq_none_iff_forall_ne_some]
    intro a' ha'
    -- an action there would be one here
    obtain ⟨s'', hs'', hmem'⟩ := ParseTable.mem_candidates_of_action? ha'
    obtain rfl := Option.some.inj (hs'.symm.trans hs'')
    obtain ⟨u, a, hmem, hu, -⟩ := (h.mem_candidates hfollow hs hsame).mp hmem'
    obtain rfl := ρ.terminal_injective hu
    rw [ParseTable.action?_of_isConsistent hconsistent hs hmem] at haction
    cases haction
  | some a =>
    obtain ⟨s₁, hs₁, hmem⟩ := ParseTable.mem_candidates_of_action? haction
    obtain rfl := Option.some.inj (hs.symm.trans hs₁)
    exact ParseTable.action?_of_isConsistent hconsistent' hs'
      ((h.mem_candidates hfollow hs hsame).mpr ⟨t, a, hmem, rfl, rfl⟩)

end Actions

end IsIso

end Renumbering

end ShiftReduce
