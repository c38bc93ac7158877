import ShiftReduce.Proofs.ConflictLog
import ShiftReduce.Proofs.Contenders
import ShiftReduce.Proofs.Soundness

/-! # The history of lost actions

Nothing competes twice for a cell, so that each contender but the last is lost to the next one, and the
conflicts of the cell are the pairs of neighbours among its contenders (`Tables.history_eq_zip_tail`). A
table is consistent when no cell has two contenders, and this is a matter of the items alone: no item set
that is reached has two complete items with a common lookahead, or one whose lookahead another item
expects (`Automaton.isConsistent_iff_items`). As contenders come in the order of writing, what takes the
place of an action is a reduction, and what kind of conflict this is tells the action that was lost. -/

namespace ShiftReduce

/-! ## Neighbours -/

section Neighbours

variable {α : Type}

/-- Neighbours in an ordered list are in order. -/
theorem rel_of_mem_zip_tail {R : α → α → Prop} {l : List α} (h : l.Pairwise R) {a b : α}
    (hab : (a, b) ∈ l.zip l.tail) : R a b := by
  induction l with
  | nil => cases hab
  | cons c l ih =>
    obtain ⟨hc, hl⟩ := List.pairwise_cons.mp h
    cases l with
    | nil => cases hab
    | cons d l =>
      rcases List.mem_cons.mp hab with heq | hab
      · obtain ⟨rfl, rfl⟩ := Prod.mk.inj heq
        exact hc b (List.mem_cons_self ..)
      · exact ih hl hab

/-- In a list without repetitions all neighbours differ. -/
theorem replacements_eq_zip_tail [DecidableEq α] {l : List α} (h : l.Nodup) :
    replacements l = l.zip l.tail := by
  induction l with
  | nil => rfl
  | cons a l ih =>
    obtain ⟨ha, hl⟩ := List.nodup_cons.mp h
    cases l with
    | nil => rfl
    | cons b l =>
      have hne : a ≠ b := fun heq => ha (heq ▸ List.mem_cons_self ..)
      rw [replacements, if_neg hne, ih hl]
      rfl

end Neighbours

/-! ## The conflicts of a state -/

/-- The conflicts of a state are those of its row. -/
theorem ParseTable.filter_conflicts {g : Grammar} {follow : FollowSets} {a : Automaton} {i : Nat}
    {s : State} (hs : a.state? i = some s) :
    ((ofAutomaton g follow a).conflicts.filter fun c => c.state = i) =
      (writeActions i {} (s.candidates g follow)).2 := by
  have hrows : (ofAutomaton g follow a).conflicts =
      a.states.toList.zipIdx.flatMap fun e => (rowOf g follow e.2 e.1).2 := List.flatMap_map ..
  rw [Automaton.state?, ← Array.getElem?_toList] at hs
  rw [hrows]
  exact filter_flatMap_zipIdx (fun e c hc => (mem_writeActions_snd hc).1) hs

namespace Tables

/-- What was lost and what took its place in the cell of a state and a terminal, one after the other. -/
def history (t : Tables) (i : Nat) (x : Terminal) : List (Action × Action) :=
  (t.table.conflicts.filter fun c => c.state = i ∧ c.terminal = x).map
    fun c => (c.previous, c.current)

/-- The history of a cell has the losses that the conflicts of its state and terminal record. -/
theorem mem_history {t : Tables} {i : Nat} {x : Terminal} {a b : Action} :
    (a, b) ∈ t.history i x ↔ ⟨i, x, a, b⟩ ∈ t.table.conflicts := by
  unfold history
  simp only [List.mem_map, List.mem_filter, decide_eq_true_eq]
  constructor
  · rintro ⟨⟨i', x', a', b'⟩, ⟨hc, rfl, rfl⟩, heq⟩
    obtain ⟨rfl, rfl⟩ := Prod.mk.inj heq
    exact hc
  · exact fun hc => ⟨_, ⟨hc, rfl, rfl⟩, rfl⟩

variable {g : Grammar}

/-- **The conflicts of a cell are the pairs of neighbours among its contenders.** -/
theorem history_eq_zip_tail (wf : g.WellFormed) (i : Nat) (x : Terminal) :
    (ofGrammar g).history i x =
      ((ofGrammar g).contenders i x).zip ((ofGrammar g).contenders i x).tail := by
  cases hs : (Automaton.ofGrammar g).state? i with
  | none =>
    rw [contenders_eq_nil hs, List.zip_nil_left, List.eq_nil_iff_forall_not_mem]
    rintro ⟨a, b⟩ hmem
    obtain ⟨s, hs', -⟩ := ParseTable.mem_conflicts.mp (mem_history.mp hmem)
    rw [hs] at hs'
    cases hs'
  | some s =>
    have hrow : (ofGrammar g).table.conflicts.filter (fun c => c.state = i) =
        (writeActions i {} (s.candidates g (ofGrammar g).follow)).2 := ParseTable.filter_conflicts hs
    have hsplit : (ofGrammar g).history i x =
        conflictsIn x ((ofGrammar g).table.conflicts.filter fun c => c.state = i) := by
      unfold history conflictsIn
      rw [List.filter_filter]
      simp only [Bool.decide_and, Bool.and_comm]
    have hordered : (written {} (s.candidates g (ofGrammar g).follow) x).Pairwise Action.Before :=
      Automaton.pairwise_written wf hs x
    rw [hsplit, hrow, conflictsIn_writeActions, contenders_eq_written wf hs,
      replacements_eq_zip_tail (nodup_of_pairwise_before hordered)]

end Tables

/-! ## Item sets that offer one action at most -/

/-- The item sets that are reached from the start items by goto on expected symbols. -/
inductive ItemSet.IsReached (g : Grammar) : ItemSet → Prop
  | start : IsReached g (Automaton.startItems g)
  | goto {s : ItemSet} {x : Symbol} (h : IsReached g s) (hx : x ∈ s.expected g) :
      IsReached g (s.goto g x)

/-- A complete item may be reduced on a terminal: one that follows the head of its rule, and the end of
the input for the rule that starts the derivations. -/
def FollowSets.LooksAhead (follow : FollowSets) (g : Grammar) (item : Item) (x : Terminal) : Prop :=
  item.rule = 0 ∧ x = .endOfInput ∨
    item.rule ≠ 0 ∧ ∃ r, g.rule? item.rule = some r ∧ follow.Has r.left x

/-- Two complete items of a set may be reduced on the same terminal. -/
def ItemSet.HasRivalReductions (s : ItemSet) (g : Grammar) (follow : FollowSets) : Prop :=
  ∃ a ∈ s, ∃ b ∈ s, a ≠ b ∧ a.isComplete g = true ∧ b.isComplete g = true ∧
    ∃ x, follow.LooksAhead g a x ∧ follow.LooksAhead g b x

/-- A complete item of a set may be reduced on a terminal that another item expects. -/
def ItemSet.HasRivalShift (s : ItemSet) (g : Grammar) (follow : FollowSets) : Prop :=
  ∃ a ∈ s, ∃ b ∈ s, a.isComplete g = true ∧
    ∃ x, follow.LooksAhead g a x ∧ b.next? g = some (.terminal x)

namespace Automaton

variable {g : Grammar} {follow : FollowSets} {i : Nat} {s : State}

/-- **The states have the item sets that are reached.** -/
theorem isReached_iff (wf : g.WellFormed) {items : ItemSet} :
    items.IsReached g ↔ ∃ i s, (ofGrammar g).state? i = some s ∧ s.items = items := by
  constructor
  · intro h
    induction h with
    | start => exact ⟨0, exists_state?_zero wf⟩
    | @goto items x _ hx ih =>
      obtain ⟨i, s, hs, rfl⟩ := ih
      obtain ⟨item, hitem, hnext⟩ := ItemSet.mem_expected.mp hx
      obtain ⟨j, s', -, hs', hgoto⟩ := exists_edge wf hs hitem hnext
      exact ⟨j, s', hs', hgoto⟩
  · rintro ⟨i, s, hs, rfl⟩
    refine collect_induction (fun items hitems items' hgoto => ?_) _ _ (fun items hstart => ?_) s.items
      (mem_itemSets_of_state? wf hs).1
    · obtain ⟨x, hx, rfl⟩ := ItemSet.mem_gotos.mp hgoto
      exact hitems.goto hx
    · rw [List.mem_singleton.mp hstart]
      exact .start

/-- A rule offers something on just the terminals on which its complete item may be reduced. -/
theorem exists_mem_reductionsOf_iff {item : Item} {x : Terminal} :
    (∃ a, (x, a) ∈ reductionsOf g follow item.rule) ↔ follow.LooksAhead g item x := by
  unfold FollowSets.LooksAhead
  simp only [mem_reductionsOf]
  constructor
  · rintro ⟨a, ⟨hzero, rfl, -⟩ | ⟨hzero, -, hr⟩⟩
    · exact Or.inl ⟨hzero, rfl⟩
    · exact Or.inr ⟨hzero, hr⟩
  · rintro (⟨hzero, rfl⟩ | ⟨hzero, hr⟩)
    · exact ⟨.accept, Or.inl ⟨hzero, rfl, rfl⟩⟩
    · exact ⟨.reduce item.rule, Or.inr ⟨hzero, rfl, hr⟩⟩

/-- A rule offers one action only, which tells the rule. -/
theorem reductionsOf_inj {rule rule' : Nat} {x : Terminal} {a b : Action}
    (ha : (x, a) ∈ reductionsOf g follow rule) (hb : (x, b) ∈ reductionsOf g follow rule') :
    a = b ↔ rule = rule' := by
  rcases mem_reductionsOf.mp ha with ⟨hzero, -, rfl⟩ | ⟨hzero, rfl, -⟩
  · rcases mem_reductionsOf.mp hb with ⟨hzero', -, rfl⟩ | ⟨hzero', rfl, -⟩
    · simp [hzero, hzero']
    · simp [hzero, Ne.symm hzero']
  · rcases mem_reductionsOf.mp hb with ⟨hzero', -, rfl⟩ | ⟨hzero', rfl, -⟩
    · simp [hzero', hzero]
    · exact ⟨Action.reduce.inj, congrArg _⟩

/-- A state shifts the terminals that its items expect. -/
theorem exists_edge_terminal_iff (wf : g.WellFormed) (hs : (ofGrammar g).state? i = some s)
    {x : Terminal} :
    (∃ j, (.terminal x, j) ∈ s.edges) ↔ ∃ b ∈ s.items, b.next? g = some (.terminal x) := by
  rw [← ItemSet.mem_expected, ← edges_keys wf hs, List.mem_map]
  constructor
  · exact fun ⟨j, hj⟩ => ⟨_, hj, rfl⟩
  · rintro ⟨⟨_, j⟩, hj, rfl⟩
    exact ⟨j, hj⟩

/-- **A state offers one action at most on each terminal** when its items have no rivals. -/
theorem candidates_unique_iff (wf : g.WellFormed) (hs : (ofGrammar g).state? i = some s) :
    (∀ x b c, (x, b) ∈ s.candidates g follow → (x, c) ∈ s.candidates g follow → b = c) ↔
      ¬s.items.HasRivalReductions g follow ∧ ¬s.items.HasRivalShift g follow := by
  constructor
  · intro h
    have offer {a : Item} (ha : a ∈ s.items) (hcomplete : a.isComplete g = true) {x : Terminal}
        {b : Action} (hb : (x, b) ∈ reductionsOf g follow a.rule) :
        (x, b) ∈ s.candidates g follow :=
      State.mem_candidates.mpr (Or.inr ⟨a, ha, hcomplete, hb⟩)
    constructor
    · rintro ⟨a, ha, b, hb, hne, hcomplete, hcomplete', x, hlook, hlook'⟩
      obtain ⟨c, hc⟩ := exists_mem_reductionsOf_iff.mpr hlook
      obtain ⟨d, hd⟩ := exists_mem_reductionsOf_iff.mpr hlook'
      have hrule := (reductionsOf_inj hc hd).mp (h x c d (offer ha hcomplete hc) (offer hb hcomplete' hd))
      exact hne (eq_of_isComplete wf hs ha hb hcomplete hcomplete' hrule)
    · rintro ⟨a, ha, b, hb, hcomplete, x, hlook, hnext⟩
      obtain ⟨c, hc⟩ := exists_mem_reductionsOf_iff.mpr hlook
      obtain ⟨j, hj⟩ := (exists_edge_terminal_iff wf hs).mpr ⟨b, hb, hnext⟩
      obtain rfl := h x c (.shift j) (offer ha hcomplete hc) (mem_candidates_shift.mpr hj)
      rcases mem_reductionsOf.mp hc with ⟨-, -, hfalse⟩ | ⟨-, hfalse, -⟩
      all_goals cases hfalse
  · rintro ⟨hreductions, hshift⟩ x b c hb hc
    have rival {j : Nat} (hj : (.terminal x, j) ∈ s.edges) {a : Item} (ha : a ∈ s.items)
        (hcomplete : a.isComplete g = true) {d : Action}
        (hd : (x, d) ∈ reductionsOf g follow a.rule) : False := by
      obtain ⟨b, hb, hnext⟩ := (exists_edge_terminal_iff wf hs).mp ⟨j, hj⟩
      exact hshift ⟨a, ha, b, hb, hcomplete, x, exists_mem_reductionsOf_iff.mp ⟨d, hd⟩, hnext⟩
    rcases State.mem_candidates.mp hb with ⟨j, rfl, hj⟩ | ⟨p, hp, hcomplete, hb⟩
    · rcases State.mem_candidates.mp hc with ⟨j', rfl, hj'⟩ | ⟨q, hq, hcomplete', hc⟩
      · -- a symbol has one edge
        have hsame := List.inj_on_of_nodup_map (nodup_edges_keys wf hs) hj hj' rfl
        exact congrArg Action.shift (Prod.mk.inj hsame).2
      · exact (rival hj hq hcomplete' hc).elim
    · rcases State.mem_candidates.mp hc with ⟨j, rfl, hj⟩ | ⟨q, hq, hcomplete', hc⟩
      · exact (rival hj hp hcomplete hb).elim
      · refine (reductionsOf_inj hb hc).mpr (by_contra fun hne => hreductions ?_)
        exact ⟨p, hp, q, hq, fun heq => hne (congrArg Item.rule heq), hcomplete, hcomplete', x,
          exists_mem_reductionsOf_iff.mp ⟨b, hb⟩, exists_mem_reductionsOf_iff.mp ⟨c, hc⟩⟩

/-- **A table is consistent when no item set that is reached has rivals.** -/
theorem isConsistent_iff_items (wf : g.WellFormed) :
    (ParseTable.ofAutomaton g follow (ofGrammar g)).isConsistent = true ↔
      ∀ items : ItemSet, items.IsReached g →
        ¬items.HasRivalReductions g follow ∧ ¬items.HasRivalShift g follow := by
  rw [ParseTable.isConsistent_iff]
  constructor
  · intro h items hreached
    obtain ⟨i, s, hs, rfl⟩ := (isReached_iff wf).mp hreached
    exact (candidates_unique_iff wf hs).mp (h i s hs)
  · intro h i s hs
    exact (candidates_unique_iff wf hs).mpr (h s.items ((isReached_iff wf).mpr ⟨i, s, hs, rfl⟩))

end Automaton

/-! ## Kinds of conflicts -/

namespace Tables

variable {g : Grammar}

/-- What takes the place of an action is a reduction, and a later one than the action. -/
theorem exists_reduce_of_mem_conflicts (wf : g.WellFormed) {c : Conflict}
    (hc : c ∈ (ofGrammar g).table.conflicts) :
    ∃ k, c.current = .reduce k ∧ c.previous.Before (.reduce k) := by
  obtain ⟨i, x, a, b⟩ := c
  have hmem := mem_history.mpr hc
  rw [history_eq_zip_tail wf] at hmem
  have hbefore : a.Before b :=
    rel_of_mem_zip_tail (pairwise_contenders (Automaton.nodup_transitions wf)) hmem
  obtain ⟨ha, hb⟩ := List.of_mem_zip hmem
  show ∃ k, b = .reduce k ∧ a.Before (.reduce k)
  cases b with
  | shift j => exact absurd hbefore (Nat.not_lt_zero _)
  | reduce k => exact ⟨k, rfl, hbefore⟩
  | accept =>
    -- only a shift comes before acceptance, and nothing shifts the end of the input
    cases a with
    | shift j =>
      obtain ⟨rfl, -⟩ := accept_mem_contenders.mp (List.mem_of_mem_tail hb)
      obtain ⟨s, hs, hedge⟩ := Automaton.mem_transitions.mp (shift_mem_contenders.mp ha)
      exact absurd hedge (endOfInput_not_mem_edges wf hs)
    | accept => exact absurd hbefore (Nat.lt_irrefl _)
    | reduce k => exact absurd hbefore (Nat.not_lt.mpr (Nat.le_add_left 1 (k + 1)))

/-- What the log of conflicts of some tables tells. -/
structure LogsLosses (t : Tables) : Prop where
  /-- each contender for a cell but the last is lost to the next one, and nothing else is -/
  history : ∀ i x, ((t.table.conflicts.filter fun c => c.state = i ∧ c.terminal = x).map
    fun c => (c.previous, c.current)) = (t.contenders i x).zip (t.contenders i x).tail
  /-- there are no conflicts when no item set that is reached has rivals -/
  consistent : t.table.isConsistent = true ↔ ∀ items : ItemSet, items.IsReached t.grammar →
    ¬items.HasRivalReductions t.grammar t.follow ∧ ¬items.HasRivalShift t.grammar t.follow
  /-- actions are lost to reductions, and the kind of a conflict tells what was lost -/
  kinds : ∀ c ∈ t.table.conflicts, ∃ k, c.current = .reduce k ∧
    (c.kind = .acceptReduce ↔ c.previous = .accept) ∧
    (c.kind = .reduceReduce ↔ ∃ k' < k, c.previous = .reduce k') ∧
    (c.kind = .shiftReduce ↔ ∃ j, c.previous = .shift j)

/-- **The log tells all losses**, in their order, and nothing else. -/
theorem logsLosses {defs : List RuleDef} {t : Tables} (h : ofRules defs = .ok t) :
    t.LogsLosses := by
  obtain ⟨g, hg, rfl⟩ := ofRules_eq_ok.mp h
  have wf := Grammar.wellFormed_of_augment hg
  refine ⟨history_eq_zip_tail wf, Automaton.isConsistent_iff_items wf, fun c hc => ?_⟩
  obtain ⟨k, hcurrent, hbefore⟩ := exists_reduce_of_mem_conflicts wf hc
  refine ⟨k, hcurrent, ?_⟩
  unfold Conflict.kind
  rw [hcurrent]
  cases hprevious : c.previous with
  | shift j => simp
  | accept => simp
  | reduce k' =>
    rw [hprevious] at hbefore
    simpa using Action.before_reduce_iff.mp hbefore

/-- Rules that compete with each other, with a shift and with acceptance. -/
theorem logsLosses_rivalRules : ∃ t,
    ofRules [⟨"S", ["S"]⟩, ⟨"S", ["A"]⟩, ⟨"S", ["B"]⟩, ⟨"A", ["a"]⟩, ⟨"B", ["a"]⟩, ⟨"S", ["a", "S"]⟩,
      ⟨"B", ["A", "a"]⟩] = .ok t ∧ t.LogsLosses := by
  obtain ⟨g, hg⟩ : ∃ g, Grammar.augment [⟨"S", ["S"]⟩, ⟨"S", ["A"]⟩, ⟨"S", ["B"]⟩, ⟨"A", ["a"]⟩,
      ⟨"B", ["a"]⟩, ⟨"S", ["a", "S"]⟩, ⟨"B", ["A", "a"]⟩] = .ok g :=
    Grammar.exists_augment (by decide) (by unfold RuleDef.IsValid; decide) (by decide) (by decide)
  have ht := ofRules_eq_ok.mpr ⟨g, hg, rfl⟩
  exact ⟨.ofGrammar g, ht, logsLosses ht⟩

end Tables

end ShiftReduce
