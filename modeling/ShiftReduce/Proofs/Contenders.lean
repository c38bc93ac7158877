import ShiftReduce.Proofs.CanonicalCollection
import ShiftReduce.Proofs.ConflictCounts
import ShiftReduce.Proofs.Runs
import ShiftReduce.Proofs.SheetColumns

/-! # The contenders for a cell

Which actions compete for a cell is told by the transitions, the items and the `FOLLOW` sets alone
(`Tables.contenders`), in the order in which they are written: a shift, then acceptance, then reductions
by rule (`Action.Before`). As this order is strict, a list in it is told by its members, and so the
contenders are what is written into the cell (`Tables.contenders_eq_written`). The last of them is what
the table holds there, and the table holds nothing else (`Tables.cellsHoldLast`). -/

namespace ShiftReduce

/-! ## The order of actions -/

/-- The place of an action in the order of writing: shifts, acceptance, and then reductions by rule. -/
def Action.place : Action → Nat
  | .shift _ => 0
  | .accept => 1
  | .reduce k => k + 2

/-- An action is written into a cell before another one. -/
def Action.Before (a b : Action) : Prop := a.place < b.place

/-- Reductions come in the order of their rules. -/
theorem Action.before_reduce_iff {k k' : Nat} : (Action.reduce k).Before (.reduce k') ↔ k < k' :=
  Nat.add_lt_add_iff_right

/-- Actions that stand in order are different. -/
theorem nodup_of_pairwise_before {l : List Action} (h : l.Pairwise Action.Before) : l.Nodup :=
  h.imp fun hab heq => Nat.ne_of_lt hab (congrArg Action.place heq)

/-- **Actions in the order of writing are told by their members.** -/
theorem eq_of_pairwise_before {l m : List Action} (hl : l.Pairwise Action.Before)
    (hm : m.Pairwise Action.Before) (h : ∀ a, a ∈ l ↔ a ∈ m) : l = m := by
  refine List.Perm.eq_of_pairwise (fun a b _ _ hab hba => ?_) hl hm ?_
  · exact absurd hba (Nat.lt_asymm hab)
  · rwa [List.perm_ext_iff_of_nodup (nodup_of_pairwise_before hl) (nodup_of_pairwise_before hm)]

/-! ## What a state offers, in order -/

section Candidates

variable {g : Grammar} {follow : FollowSets} {s : State} {i : Nat}

/-- Each terminal that a state shifts has but one edge. -/
theorem Automaton.pairwise_shifts (wf : g.WellFormed) (hs : (ofGrammar g).state? i = some s) :
    s.shifts.Pairwise fun e e' => e.1 ≠ e'.1 := by
  have hkeys := List.pairwise_map.mp (nodup_edges_keys wf hs)
  refine List.pairwise_filterMap.mpr (hkeys.imp fun hne b hb b' hb' heq => hne ?_)
  simp only [Option.map_eq_some_iff, Symbol.terminal?_eq_some] at hb hb'
  obtain ⟨t, ht, rfl⟩ := hb
  obtain ⟨t', ht', rfl⟩ := hb'
  rw [ht, ht']
  exact congrArg Symbol.terminal heq

/-- A rule offers to be reduced once on a terminal. -/
theorem pairwise_reductionsOf (rule : Nat) :
    (reductionsOf g follow rule).Pairwise fun e e' => e.1 ≠ e'.1 := by
  unfold reductionsOf
  split
  · exact List.pairwise_singleton _ _
  · split
    · exact List.pairwise_map.mpr (SymbolSet.nodup_toList _)
    · exact List.Pairwise.nil

/-- What an earlier rule offers is written before what a later one does. -/
theorem before_of_mem_reductionsOf {rule rule' : Nat} (h : rule < rule') {e e' : Terminal × Action}
    (he : e ∈ reductionsOf g follow rule) (he' : e' ∈ reductionsOf g follow rule') :
    e.2.Before e'.2 := by
  obtain ⟨x, a⟩ := e
  obtain ⟨x', a'⟩ := e'
  have hlater : a' = .reduce rule' := by
    rcases mem_reductionsOf.mp he' with ⟨hzero, -, -⟩ | ⟨-, ha', -⟩
    · exact absurd hzero (Nat.ne_of_gt (Nat.zero_lt_of_lt h))
    · exact ha'
  rw [hlater]
  rcases mem_reductionsOf.mp he with ⟨-, -, rfl⟩ | ⟨-, rfl, -⟩
  · exact Nat.lt_add_left _ Nat.one_lt_two
  · exact Action.before_reduce_iff.mpr h

/-- **What a state offers on a terminal is in the order of writing.** -/
theorem Automaton.pairwise_candidates (wf : g.WellFormed)
    (hs : (ofGrammar g).state? i = some s) :
    (s.candidates g follow).Pairwise fun e e' => e.1 = e'.1 → e.2.Before e'.2 := by
  unfold State.candidates
  refine List.pairwise_append.mpr ⟨?_, ?_, ?_⟩
  · refine List.pairwise_map.mpr ((pairwise_shifts wf hs).imp fun hne heq => ?_)
    exact absurd heq hne
  · refine List.pairwise_flatMap.mpr ⟨fun rule _ => ?_, ?_⟩
    · exact (pairwise_reductionsOf rule).imp fun hne heq => absurd heq hne
    · exact (pairwise_reduces wf hs).imp fun hlt e he e' he' _ =>
        before_of_mem_reductionsOf hlt he he'
  · intro e he e' he' _
    obtain ⟨⟨x, j⟩, -, rfl⟩ := List.mem_map.mp he
    obtain ⟨rule, -, hoffer⟩ := List.mem_flatMap.mp he'
    -- no reduction has the place of a shift
    rcases mem_reductionsOf.mp (show (e'.1, e'.2) ∈ _ from hoffer) with ⟨-, -, ha⟩ | ⟨-, ha, -⟩
    · rw [ha]
      exact Nat.one_pos
    · rw [ha]
      exact Nat.succ_pos _

/-- What is written into a cell of a row that is still empty is in the order of writing. -/
theorem Automaton.pairwise_written (wf : g.WellFormed) (hs : (ofGrammar g).state? i = some s)
    (x : Terminal) : (written {} (s.candidates g follow) x).Pairwise Action.Before := by
  show ((s.candidates g follow).filter fun e => e.1 = x).map (·.2) |>.Pairwise Action.Before
  refine List.pairwise_map.mpr
    (((pairwise_candidates wf hs).filter _).imp_of_mem fun {e e'} he he' hbefore => hbefore ?_)
  rw [of_decide_eq_true (List.mem_filter.mp he).2, of_decide_eq_true (List.mem_filter.mp he').2]

/-- In an empty row the cell gets what is written in its column. -/
theorem mem_written_empty {l : List (Terminal × Action)} {x : Terminal} {a : Action} :
    a ∈ written {} l x ↔ (x, a) ∈ l := by
  rw [mem_written, or_iff_right]
  intro h
  cases h

end Candidates

/-! ## Rows without repetitions -/

/-- An insertion keeps the keys different. -/
theorem OrderedMap.nodup_keys_insert {κ α : Type} [DecidableEq κ] {m : OrderedMap κ α}
    (h : m.keys.Nodup) (k : κ) (a : α) : (m.insert k a).keys.Nodup := by
  rw [keys_insert]
  split
  · exact h
  · next hk =>
    refine List.nodup_append.mpr ⟨h, List.nodup_singleton k, ?_⟩
    intro b hb c hc heq
    rw [heq, List.mem_singleton.mp hc] at hb
    exact hk hb

/-- Writing keeps one entry for each terminal. -/
theorem nodup_keys_writeActions {state : Nat} {cells : OrderedMap Terminal Action}
    {l : List (Terminal × Action)} (h : cells.keys.Nodup) :
    (writeActions state cells l).1.keys.Nodup := by
  induction l generalizing cells with
  | nil => exact h
  | cons e l ih => exact ih (OrderedMap.nodup_keys_insert h e.1 e.2)

/-- Each nonterminal behind which a state leads on has but one edge. -/
theorem Automaton.nodup_keys_gotos {g : Grammar} (wf : g.WellFormed) {i : Nat} {s : State}
    (hs : (ofGrammar g).state? i = some s) : (⟨s.gotos⟩ : OrderedMap Nonterminal Nat).keys.Nodup := by
  have hkeys := List.pairwise_map.mp (nodup_edges_keys wf hs)
  refine List.pairwise_map.mpr (List.pairwise_filterMap.mpr (hkeys.imp ?_))
  intro e e' hne b hb b' hb' heq
  apply hne
  simp only [Option.map_eq_some_iff, Symbol.nonterminal?_eq_some] at hb hb'
  obtain ⟨n, hn, rfl⟩ := hb
  obtain ⟨n', hn', rfl⟩ := hb'
  rw [hn, hn']
  exact congrArg Symbol.nonterminal heq

/-! ## Contenders -/

instance Automaton.decidableHasItem (a : Automaton) (i : Nat) (item : Item) :
    Decidable (a.HasItem i item) :=
  inferInstanceAs (Decidable (∃ s ∈ a.state? i, item ∈ s.items))

instance FollowSets.decidableHas (s : FollowSets) (n : Nonterminal) (x : Terminal) :
    Decidable (s.Has n x) :=
  inferInstanceAs (Decidable (∃ set ∈ s.get? n, x ∈ set))

namespace Tables

/-- A rule that was read can be reduced in a state on a terminal: the state has its complete item, and
the terminal is in `FOLLOW` of its head. -/
def CanReduce (t : Tables) (i : Nat) (x : Terminal) (k : Nat) : Prop :=
  k ≠ 0 ∧ ∃ r, t.grammar.rule? k = some r ∧ t.automaton.HasItem i ⟨k, r.right.size⟩ ∧
    t.follow.Has r.left x

instance (t : Tables) (i : Nat) (x : Terminal) : DecidablePred (t.CanReduce i x) := fun k =>
  inferInstanceAs (Decidable (k ≠ 0 ∧ ∃ r ∈ t.grammar.rule? k,
    t.automaton.HasItem i ⟨k, r.right.size⟩ ∧ t.follow.Has r.left x))

/-- The actions that compete for the cell of a state and a terminal: to shift along the transition, to
accept at the end of the input when the start symbol has been read, and to reduce by increasing rule. -/
def contenders (t : Tables) (i : Nat) (x : Terminal) : List Action :=
  ((t.automaton.transitions.filter fun e => e.source = i ∧ e.symbol = .terminal x).map
    fun e => .shift e.target) ++
  (if x = .endOfInput ∧ t.automaton.HasItem i ⟨0, 1⟩ then [.accept] else []) ++
  ((List.range t.grammar.rules.size).filter fun k => t.CanReduce i x k).map .reduce

section Contenders

variable {t : Tables} {i : Nat} {x : Terminal}

/-- What competes for a cell: a shift along a transition, acceptance, or a reduction. -/
theorem mem_contenders {a : Action} : a ∈ t.contenders i x ↔
    (∃ j, a = .shift j ∧ ⟨i, j, .terminal x⟩ ∈ t.automaton.transitions) ∨
    (a = .accept ∧ x = .endOfInput ∧ t.automaton.HasItem i ⟨0, 1⟩) ∨
    ∃ k, a = .reduce k ∧ t.CanReduce i x k := by
  have hshift : a ∈ (t.automaton.transitions.filter fun e => e.source = i ∧ e.symbol = .terminal x).map
      (fun e => Action.shift e.target) ↔
        ∃ j, a = .shift j ∧ ⟨i, j, .terminal x⟩ ∈ t.automaton.transitions := by
    simp only [List.mem_map, List.mem_filter, decide_eq_true_eq]
    constructor
    · rintro ⟨⟨i, j, y⟩, ⟨he, rfl, rfl⟩, rfl⟩
      exact ⟨j, rfl, he⟩
    · rintro ⟨j, rfl, he⟩
      exact ⟨_, ⟨he, rfl, rfl⟩, rfl⟩
  have haccept : (a ∈ if x = .endOfInput ∧ t.automaton.HasItem i ⟨0, 1⟩ then [Action.accept] else []) ↔
      a = .accept ∧ x = .endOfInput ∧ t.automaton.HasItem i ⟨0, 1⟩ := by
    split
    · next h => simp [h]
    · next h => simp [h]
  have hreduce : a ∈ ((List.range t.grammar.rules.size).filter fun k => t.CanReduce i x k).map .reduce ↔
      ∃ k, a = .reduce k ∧ t.CanReduce i x k := by
    simp only [List.mem_map, List.mem_filter, List.mem_range, decide_eq_true_eq]
    constructor
    · rintro ⟨k, ⟨-, hk⟩, rfl⟩
      exact ⟨k, rfl, hk⟩
    · rintro ⟨k, rfl, hk⟩
      obtain ⟨-, r, hr, -⟩ := id hk
      exact ⟨k, ⟨(Array.getElem?_eq_some_iff.mp hr).1, hk⟩, rfl⟩
  unfold contenders
  rw [List.append_assoc, List.mem_append, List.mem_append, hshift, haccept, hreduce]

/-- A shift is a candidate where a transition goes over the terminal. -/
theorem shift_mem_contenders {j : Nat} :
    .shift j ∈ t.contenders i x ↔ ⟨i, j, .terminal x⟩ ∈ t.automaton.transitions := by
  simp [mem_contenders]

/-- Accepting is a candidate at the end of input where the start rule is complete. -/
theorem accept_mem_contenders :
    .accept ∈ t.contenders i x ↔ x = .endOfInput ∧ t.automaton.HasItem i ⟨0, 1⟩ := by
  simp [mem_contenders]

/-- A reduction is a candidate where its rule is complete and the terminal may follow its head. -/
theorem reduce_mem_contenders {k : Nat} : .reduce k ∈ t.contenders i x ↔ t.CanReduce i x k := by
  simp [mem_contenders]

/-- The contenders are in the order of writing when a state has one transition on a symbol. -/
theorem pairwise_contenders
    (h : (t.automaton.transitions.map fun e => (e.source, e.symbol)).Nodup) :
    (t.contenders i x).Pairwise Action.Before := by
  unfold contenders
  have hshifts : ((t.automaton.transitions.filter fun e =>
      e.source = i ∧ e.symbol = .terminal x).map fun e => Action.shift e.target).Pairwise
        Action.Before := by
    refine List.pairwise_map.mpr (((List.pairwise_map.mp h).filter _).imp_of_mem ?_)
    intro e e' he he' hne
    obtain ⟨hsource, hsymbol⟩ := of_decide_eq_true (List.mem_filter.mp he).2
    obtain ⟨hsource', hsymbol'⟩ := of_decide_eq_true (List.mem_filter.mp he').2
    exact absurd (by rw [hsource, hsymbol, hsource', hsymbol']) hne
  have hreductions : (((List.range t.grammar.rules.size).filter fun k => t.CanReduce i x k).map
      Action.reduce).Pairwise Action.Before :=
    List.pairwise_map.mpr ((List.pairwise_lt_range.filter _).imp Action.before_reduce_iff.mpr)
  refine List.pairwise_append.mpr ⟨List.pairwise_append.mpr ⟨hshifts, ?_, ?_⟩, hreductions, ?_⟩
  · split
    · exact List.pairwise_singleton _ _
    · exact List.Pairwise.nil
  · intro a ha b hb
    obtain ⟨e, -, rfl⟩ := List.mem_map.mp ha
    split at hb
    · rw [List.mem_singleton.mp hb]
      exact Nat.one_pos
    · cases hb
  · intro a ha b hb
    obtain ⟨k, -, rfl⟩ := List.mem_map.mp hb
    rcases List.mem_append.mp ha with ha | ha
    · obtain ⟨e, -, rfl⟩ := List.mem_map.mp ha
      exact Nat.succ_pos _
    · split at ha
      · rw [List.mem_singleton.mp ha]
        exact Nat.lt_add_left _ Nat.one_lt_two
      · cases ha

end Contenders

section OfGrammar

variable {g : Grammar} {s : State} {i : Nat} {x : Terminal}

/-- **The contenders for a cell are what is written into it.** -/
theorem contenders_eq_written (wf : g.WellFormed) (hs : (Automaton.ofGrammar g).state? i = some s) :
    (ofGrammar g).contenders i x = written {} (s.candidates g (ofGrammar g).follow) x := by
  refine eq_of_pairwise_before (pairwise_contenders (Automaton.nodup_transitions wf))
    (Automaton.pairwise_written wf hs x) fun a => ?_
  rw [mem_written_empty]
  cases a with
  | shift j =>
    rw [shift_mem_contenders, mem_candidates_shift]
    refine Automaton.mem_transitions.trans ⟨?_, fun h => ⟨s, hs, h⟩⟩
    rintro ⟨s', hs', hedge⟩
    rwa [Option.some.inj (hs.symm.trans hs')]
  | accept => rw [accept_mem_contenders, mem_candidates_accept wf hs]; rfl
  | reduce k =>
    rw [reduce_mem_contenders, mem_candidates_reduce wf hs]
    refine and_congr_right fun _ => exists_congr fun r => and_congr_right fun _ => and_comm

/-- Where there is no state nothing competes. -/
theorem contenders_eq_nil {t : Tables} (h : t.automaton.state? i = none) : t.contenders i x = [] := by
  have hitem {item : Item} : ¬t.automaton.HasItem i item := by
    rintro ⟨s, hs, -⟩
    rw [h] at hs
    cases hs
  refine List.eq_nil_iff_forall_not_mem.mpr fun a ha => ?_
  cases a with
  | shift j =>
    obtain ⟨s, hs, -⟩ := Automaton.mem_transitions.mp (shift_mem_contenders.mp ha)
    rw [h] at hs
    cases hs
  | accept => exact hitem (accept_mem_contenders.mp ha).2
  | reduce k =>
    obtain ⟨-, r, -, hhas, -⟩ := reduce_mem_contenders.mp ha
    exact hitem hhas

/-- **A cell holds the last contender.** -/
theorem action?_eq_getLast? (wf : g.WellFormed) (i : Nat) (x : Terminal) :
    (ofGrammar g).table.action? i x = ((ofGrammar g).contenders i x).getLast? := by
  refine (ParseTable.action?_ofAutomaton x).trans ?_
  cases hs : (Automaton.ofGrammar g).state? i with
  | none => rw [contenders_eq_nil hs]; rfl
  | some s => rw [contenders_eq_written wf hs]; rfl

/-- An action row has one entry for each terminal. -/
theorem nodup_keys_actions {row : Row} (h : (ofGrammar g).table.rows[i]? = some row) :
    row.actions.keys.Nodup := by
  obtain ⟨s, -, rfl⟩ := Option.map_eq_some_iff.mp (ParseTable.getElem?_rows.symm.trans h)
  have hempty : ({} : OrderedMap Terminal Action).keys.Nodup := List.nodup_nil
  exact nodup_keys_writeActions hempty

/-- The entries of an action row are what is looked up in it. -/
theorem mem_actions_iff {row : Row} (h : (ofGrammar g).table.rows[i]? = some row) {a : Action} :
    (x, a) ∈ row.actions.entries ↔ (ofGrammar g).table.action? i x = some a := by
  have hlookup : (ofGrammar g).table.action? i x = row.actions.get? x := by
    unfold ParseTable.action?
    rw [h, Option.bind_some]
  rw [hlookup, OrderedMap.get?_eq_some_iff (nodup_keys_actions h)]

/-- The entries of a goto row are what is looked up in it. -/
theorem mem_gotos_iff (wf : g.WellFormed) {row : Row} (h : (ofGrammar g).table.rows[i]? = some row)
    {n : Nonterminal} {j : Nat} :
    (n, j) ∈ row.gotos.entries ↔ (ofGrammar g).table.goto? i n = some j := by
  have hlookup : (ofGrammar g).table.goto? i n = row.gotos.get? n := by
    unfold ParseTable.goto?
    rw [h, Option.bind_some]
  obtain ⟨s, hs, rfl⟩ := Option.map_eq_some_iff.mp (ParseTable.getElem?_rows.symm.trans h)
  rw [hlookup]
  exact (OrderedMap.get?_eq_some_iff (Automaton.nodup_keys_gotos wf hs)).symm

end OfGrammar

/-! ## Cells -/

/-- What is in the cells of some tables is told by their transitions, items and `FOLLOW` sets. -/
structure CellsHoldLast (t : Tables) : Prop where
  /-- there is a row for each state -/
  rows : t.table.rows.size = t.automaton.states.size
  /-- an action cell holds the last of its contenders -/
  action : ∀ i x, t.table.action? i x = (t.contenders i x).getLast?
  /-- an action cell is empty when nothing competes for it, and only then -/
  empty : ∀ i x, t.table.action? i x = none ↔ t.contenders i x = []
  /-- a goto cell holds the target of the transition -/
  goto : ∀ i n j, t.table.goto? i n = some j ↔
    ⟨i, j, .nonterminal n⟩ ∈ t.automaton.transitions
  /-- an action row has no entries but these -/
  actions : ∀ i row, t.table.rows[i]? = some row → ∀ x a,
    (x, a) ∈ row.actions.entries ↔ t.table.action? i x = some a
  /-- a goto row has no entries but these -/
  gotos : ∀ i row, t.table.rows[i]? = some row → ∀ n j,
    (n, j) ∈ row.gotos.entries ↔ t.table.goto? i n = some j

/-- **Every cell holds the last contender for it, and nothing else is in the tables.** With no more than
`2 ^ 32` states, the rows and the targets are the numbers that a counter of `32` bits hands out
(`Assembly.HoldsAutomaton`). -/
theorem cellsHoldLast {defs : List RuleDef} {t : Tables} (h : ofRules defs = .ok t) :
    t.CellsHoldLast := by
  obtain ⟨g, hg, rfl⟩ := ofRules_eq_ok.mp h
  have wf := Grammar.wellFormed_of_augment hg
  constructor
  case rows => simp [ofGrammar, ParseTable.ofAutomaton]
  case action => exact fun i x => action?_eq_getLast? wf i x
  case empty =>
    intro i x
    rw [action?_eq_getLast? wf, List.getLast?_eq_none_iff]
  case goto =>
    intro i n j
    rw [Automaton.mem_transitions]
    exact ParseTable.goto?_eq_some wf
  case actions => exact fun i row hrow x a => mem_actions_iff hrow
  case gotos => exact fun i row hrow n j => mem_gotos_iff wf hrow

/-- A rule list with a cyclic start symbol, a rule that comes twice and reductions that compete. -/
theorem cellsHoldLast_cyclicRules : ∃ t,
    ofRules [⟨"S", ["S"]⟩, ⟨"S", ["a"]⟩, ⟨"S", ["A"]⟩, ⟨"A", ["a"]⟩, ⟨"S", ["a"]⟩] = .ok t ∧
    t.CellsHoldLast := by
  obtain ⟨g, hg⟩ : ∃ g, Grammar.augment
      [⟨"S", ["S"]⟩, ⟨"S", ["a"]⟩, ⟨"S", ["A"]⟩, ⟨"A", ["a"]⟩, ⟨"S", ["a"]⟩] = .ok g :=
    Grammar.exists_augment (by decide) (by unfold RuleDef.IsValid; decide) (by decide) (by decide)
  have ht := ofRules_eq_ok.mpr ⟨g, hg, rfl⟩
  exact ⟨.ofGrammar g, ht, cellsHoldLast ht⟩

end Tables

end ShiftReduce
