import ShiftReduce.Proofs.ConflictHistory

/-! # Where the input is accepted

The start item is in state `0` alone, as no goto set has it (`Automaton.hasItem_start_iff`). So it is
moved on along one edge only, that of the start symbol, which is the first edge of all and therefore
leads to state `1` (`Automaton.start_mem_transitions`). Acceptance is offered in this state alone, at the
end of the input, and before everything else there (`Tables.exists_contenders_accept`): either it stays,
or it is lost in one conflict. -/

namespace ShiftReduce

/-- The start item expects the start symbol. -/
theorem Item.next?_start {g : Grammar} (wf : g.WellFormed) :
    Item.start.next? g = some (.nonterminal g.start) := by
  rw [Item.next?_eq (show g.rule? Item.start.rule = _ from wf.rule?_zero)]
  rfl

namespace Automaton

variable {g : Grammar}

/-! ## States 0 and 1 -/

/-- **The start item is in state `0` alone.** -/
theorem hasItem_start_iff (wf : g.WellFormed) {i : Nat} :
    (ofGrammar g).HasItem i .start ↔ i = 0 := by
  constructor
  · rintro ⟨s, hs, hitem⟩
    by_contra hne
    rw [state?_ofGrammar wf, Option.map_eq_some_iff] at hs
    obtain ⟨items, hitems, rfl⟩ := hs
    -- any other state has a goto set
    obtain ⟨-, -, items', -, hgoto⟩ := exists_mem_gotos wf hne hitems
    obtain ⟨x, -, rfl⟩ := ItemSet.mem_gotos.mp hgoto
    exact start_not_mem_goto wf items' x hitem
  · rintro rfl
    exact HasItem.start wf

/-- The start symbol is the first that the start items expect. -/
theorem exists_expected_startItems (wf : g.WellFormed) :
    ∃ others, (startItems g).expected g = .nonterminal g.start :: others := by
  have hstart : Item.start ∈ (startItems g).items := start_mem_startItems
  have hsorted := (startItems g).sorted
  unfold ItemSet.expected
  cases hitems : (startItems g).items with
  | nil =>
    rw [hitems] at hstart
    cases hstart
  | cons item items =>
    rw [hitems] at hstart hsorted
    -- no item comes before the start item
    have hfirst : item = .start := by
      rcases List.mem_cons.mp hstart with heq | hmem
      · exact heq.symm
      · have hlt : item.rule < 0 ∨ item.rule = 0 ∧ item.marker < 0 :=
          (List.pairwise_cons.mp hsorted).1 _ hmem
        omega
    rw [hfirst, List.filterMap_cons_some (Item.next?_start wf), List.eraseDups_cons]
    exact ⟨_, rfl⟩

/-- **The first transition is that on the start symbol,** and it leads to state `1`. -/
theorem exists_transitions_eq (wf : g.WellFormed) :
    ∃ after, (ofGrammar g).transitions = ⟨0, 1, .nonterminal g.start⟩ :: after := by
  obtain ⟨s, hs, hitems⟩ := exists_state?_zero wf
  obtain ⟨others, hexpected⟩ := exists_expected_startItems wf
  have hkeys := edges_keys wf hs
  rw [hitems, hexpected, List.map_eq_cons_iff] at hkeys
  obtain ⟨⟨_, j⟩, edges, hedges, rfl, -⟩ := hkeys
  obtain ⟨states, hstates⟩ : ∃ states, (ofGrammar g).states.toList = s :: states := by
    rw [state?, ← Array.getElem?_toList] at hs
    cases hlist : (ofGrammar g).states.toList with
    | nil => rw [hlist] at hs; cases hs
    | cons s' states =>
      rw [hlist] at hs
      exact ⟨states, by rw [Option.some.inj hs]⟩
  obtain ⟨after, hafter⟩ : ∃ after,
      (ofGrammar g).transitions = [] ++ ⟨0, j, .nonterminal g.start⟩ :: after := by
    rw [transitions_eq, hstates, List.zipIdx_cons, List.flatMap_cons]
    show ∃ after, s.outgoing 0 ++ _ = _
    rw [State.outgoing, hedges]
    exact ⟨_, rfl⟩
  -- what is found first gets the first number after `0`
  obtain ⟨found, next, hbehind⟩ := exists_standsBehind wf hafter
  obtain rfl : j = 1 := hbehind.target_eq wf List.not_mem_nil
  exact ⟨after, hafter⟩

/-- A transition leads from state 0 to state 1 over the start symbol. -/
theorem start_mem_transitions (wf : g.WellFormed) :
    ⟨0, 1, .nonterminal g.start⟩ ∈ (ofGrammar g).transitions := by
  obtain ⟨after, hafter⟩ := exists_transitions_eq wf
  rw [hafter]
  exact List.mem_cons_self ..

/-- A transition to a state that has read the start symbol is the one from state `0`. -/
theorem eq_of_hasItem_accept (wf : g.WellFormed) {e : Transition}
    (he : e ∈ (ofGrammar g).transitions) (h : (ofGrammar g).HasItem e.target ⟨0, 1⟩) :
    e = ⟨0, 1, .nonterminal g.start⟩ := by
  obtain ⟨i, j, x⟩ := e
  obtain ⟨s, hs, hedge⟩ := mem_transitions.mp he
  -- the item comes over the edge, and before that it is the start item
  obtain ⟨before, hbefore, hnext, hadvance⟩ := HasItem.exists_of_edge wf hs hedge h Nat.one_ne_zero
  obtain rfl : before = .start := Item.advance_inj hadvance
  obtain rfl : i = 0 := (hasItem_start_iff wf).mp hbefore
  obtain rfl : .nonterminal g.start = x := Option.some.inj ((Item.next?_start wf).symm.trans hnext)
  exact List.inj_on_of_nodup_map (nodup_transitions wf) he (start_mem_transitions wf) rfl

/-- **The start symbol has been read in state `1` alone.** -/
theorem hasItem_accept_iff (wf : g.WellFormed) {i : Nat} :
    (ofGrammar g).HasItem i ⟨0, 1⟩ ↔ i = 1 := by
  constructor
  · intro h
    obtain ⟨s, hs, hitem⟩ := h
    by_cases hzero : i = 0
    · -- in state `0` nothing has been read
      obtain ⟨s', hs', hitems⟩ := exists_state?_zero wf
      subst hzero
      rw [Option.some.inj (hs.symm.trans hs'), hitems] at hitem
      exact absurd (marker_of_mem_startItems hitem) Nat.one_ne_zero
    · -- the last transition on the way to any other state is the one on the start symbol
      obtain ⟨k, -, x, he⟩ :=
        ((Relation.ReflTransGen.cases_tail_iff _ _ _).mp (reaches_state wf hs)).resolve_left hzero
      exact congrArg Transition.target (eq_of_hasItem_accept wf he ⟨s, hs, hitem⟩)
  · rintro rfl
    obtain ⟨s, hs, hedge⟩ := mem_transitions.mp (start_mem_transitions wf)
    obtain ⟨s', hs', hgoto⟩ := exists_of_mem_edges wf hs hedge
    refine ⟨s', hs', ?_⟩
    rw [hgoto]
    exact ItemSet.advance_mem_goto ((HasItem.start wf).mem_items hs) (Item.next?_start wf)

/-- No transition leads back to state `0`. -/
theorem target_ne_zero (wf : g.WellFormed) {e : Transition} (he : e ∈ (ofGrammar g).transitions) :
    e.target ≠ 0 := by
  intro hzero
  obtain ⟨s, hs, hedge⟩ := mem_transitions.mp he
  obtain ⟨s', hs', hgoto⟩ := exists_of_mem_edges wf hs hedge
  have hstart := ((hasItem_start_iff wf).mpr hzero).mem_items hs'
  rw [hgoto] at hstart
  exact start_not_mem_goto wf _ _ hstart

end Automaton

/-! ## Counting -/

section Counting

variable {α β : Type}

/-- When only one element of a list makes anything that passes a test, only what it makes counts. -/
theorem countP_flatMap_of_unique {l : List α} {f : α → List β} {p : β → Bool} {i : Nat} {a : α}
    (ha : l[i]? = some a) (h : ∀ j b, l[j]? = some b → ∀ c ∈ f b, p c = true → j = i) :
    (l.flatMap f).countP p = (f a).countP p := by
  have hother {m : List α} (hm : ∀ b ∈ m, ∃ j, j ≠ i ∧ l[j]? = some b) :
      (m.flatMap f).countP p = 0 := by
    rw [List.countP_eq_zero]
    intro c hc hp
    obtain ⟨b, hb, hc⟩ := List.mem_flatMap.mp hc
    obtain ⟨j, hj, hget⟩ := hm b hb
    exact hj (h j b hget c hc hp)
  have hbefore : ((l.take i).flatMap f).countP p = 0 := hother fun b hb => by
    obtain ⟨j, hj⟩ := List.mem_iff_getElem?.mp hb
    rw [List.getElem?_take] at hj
    split at hj
    · next hji => exact ⟨j, hji.ne, hj⟩
    · cases hj
  have hafter : ((l.drop (i + 1)).flatMap f).countP p = 0 := hother fun b hb => by
    obtain ⟨j, hj⟩ := List.mem_iff_getElem?.mp hb
    rw [List.getElem?_drop] at hj
    exact ⟨i + 1 + j, by omega, hj⟩
  rw [← take_append_cons_drop ha, List.flatMap_append, List.flatMap_cons, List.countP_append,
    List.countP_append, hbefore, hafter, Nat.zero_add, Nat.add_zero]

/-- What stands first and nowhere else has a neighbour behind it unless it stands alone. -/
theorem countP_zip_fst_eq [DecidableEq α] {a : α} {l : List α} (h : a ∉ l) :
    ((a :: l).zip l).countP (fun e => e.1 = a) = if l = [] then 0 else 1 := by
  cases l with
  | nil => rfl
  | cons b l =>
    have hrest : ((b :: l).zip l).countP (fun e => e.1 = a) = 0 := by
      rw [List.countP_eq_zero]
      rintro ⟨c, d⟩ hc heq
      exact h (of_decide_eq_true heq ▸ (List.of_mem_zip hc).1)
    rw [List.zip_cons_cons, List.countP_cons, hrest]
    simp

end Counting

/-! ## Acceptance -/

namespace Tables

variable {g : Grammar}

/-- **Acceptance is the first contender for its cell,** and only reductions compete with it. -/
theorem exists_contenders_accept (wf : g.WellFormed) :
    ∃ others, (ofGrammar g).contenders 1 .endOfInput = .accept :: others ∧ .accept ∉ others ∧
      ∀ a ∈ others, ∃ k, a = .reduce k := by
  have haccept : Action.accept ∈ (ofGrammar g).contenders 1 .endOfInput :=
    accept_mem_contenders.mpr ⟨rfl, (Automaton.hasItem_accept_iff wf).mpr rfl⟩
  have hshift (j : Nat) : Action.shift j ∉ (ofGrammar g).contenders 1 .endOfInput := by
    intro hj
    obtain ⟨s, hs, hedge⟩ := Automaton.mem_transitions.mp (shift_mem_contenders.mp hj)
    exact endOfInput_not_mem_edges wf hs hedge
  have hordered : ((ofGrammar g).contenders 1 .endOfInput).Pairwise Action.Before :=
    pairwise_contenders (Automaton.nodup_transitions wf)
  cases hlist : (ofGrammar g).contenders 1 .endOfInput with
  | nil =>
    rw [hlist] at haccept
    cases haccept
  | cons first others =>
    rw [hlist] at haccept hordered hshift
    obtain ⟨hbefore, -⟩ := List.pairwise_cons.mp hordered
    -- only a shift could come before acceptance
    have hfirst : first = .accept := by
      rcases List.mem_cons.mp haccept with heq | hmem
      · exact heq.symm
      · cases first with
        | shift j => exact absurd (List.mem_cons_self ..) (hshift j)
        | accept => rfl
        | reduce k => exact absurd (hbefore _ hmem) (Nat.not_lt.mpr (Nat.le_add_left 1 (k + 1)))
    subst hfirst
    refine ⟨others, rfl, fun hmem => Nat.lt_irrefl _ (hbefore _ hmem), fun a ha => ?_⟩
    have hlater := hbefore a ha
    cases a with
    | shift j => exact absurd hlater (Nat.not_lt_zero _)
    | accept => exact absurd hlater (Nat.lt_irrefl _)
    | reduce k => exact ⟨k, rfl⟩

/-- A row never holds acceptance but in state `1` at the end of the input, however far it is written. -/
theorem eq_of_get?_writeActions_accept (wf : g.WellFormed) {i : Nat} {s : State}
    (hs : (Automaton.ofGrammar g).state? i = some s) {follow : FollowSets}
    {l : List (Terminal × Action)} (hl : l <+: s.candidates g follow) {x : Terminal}
    (h : (writeActions i {} l).1.get? x = some .accept) : i = 1 ∧ x = .endOfInput := by
  rw [get?_writeActions] at h
  have hmem := hl.subset (mem_written_empty.mp (List.mem_of_getLast? h))
  obtain ⟨hx, hitem⟩ := (mem_candidates_accept wf hs).mp hmem
  exact ⟨(Automaton.hasItem_accept_iff wf).mp hitem, hx⟩

/-- Where acceptance is offered at all. -/
theorem eq_of_accept_mem_contenders (wf : g.WellFormed) {i : Nat} {x : Terminal}
    (h : .accept ∈ (ofGrammar g).contenders i x) : i = 1 ∧ x = .endOfInput := by
  obtain ⟨hx, hitem⟩ := accept_mem_contenders.mp h
  exact ⟨(Automaton.hasItem_accept_iff wf).mp hitem, hx⟩

/-- **Only the cell of state 1 and the end of input can accept.** -/
theorem eq_of_action?_accept (wf : g.WellFormed) {i : Nat} {x : Terminal}
    (h : (ofGrammar g).table.action? i x = some .accept) : i = 1 ∧ x = .endOfInput := by
  rw [action?_eq_getLast? wf] at h
  exact eq_of_accept_mem_contenders wf (List.mem_of_getLast? h)

/-- **Acceptance stays in its cell unless a rule can be reduced there.** -/
theorem action?_eq_accept_iff (wf : g.WellFormed) :
    (ofGrammar g).table.action? 1 .endOfInput = some .accept ↔
      ¬∃ k, (ofGrammar g).CanReduce 1 .endOfInput k := by
  obtain ⟨others, hcontenders, hnot, hreduce⟩ := exists_contenders_accept wf
  rw [action?_eq_getLast? wf, hcontenders, getLast?_cons_eq_self_iff hnot]
  constructor
  · rintro rfl ⟨k, hk⟩
    rw [← reduce_mem_contenders, hcontenders] at hk
    simp at hk
  · intro hnone
    refine List.eq_nil_iff_forall_not_mem.mpr fun a ha => hnone ?_
    obtain ⟨k, rfl⟩ := hreduce a ha
    refine ⟨k, reduce_mem_contenders.mp ?_⟩
    rw [hcontenders]
    exact List.mem_cons_of_mem _ ha

/-- How many cells hold acceptance. -/
def acceptCells (t : Tables) : Nat :=
  (t.table.rows.toList.flatMap fun row => row.actions.entries).countP fun e => e.2 = .accept

/-- How many conflicts there are in which acceptance was lost. -/
def lostAccepts (t : Tables) : Nat := t.table.conflicts.countP fun c => c.previous = .accept

/-- There is one accepting cell, or none when that cell does not accept. -/
theorem acceptCells_eq (wf : g.WellFormed) : (ofGrammar g).acceptCells =
    if (ofGrammar g).table.action? 1 .endOfInput = some .accept then 1 else 0 := by
  obtain ⟨s, hs, -⟩ := (Automaton.hasItem_accept_iff wf).mpr (rfl : 1 = 1)
  obtain ⟨row, hrow⟩ : ∃ row, (ofGrammar g).table.rows[1]? = some row :=
    ⟨_, ParseTable.getElem?_rows.trans (congrArg _ hs)⟩
  -- acceptance is in no row but that of state `1`
  have hunique : ∀ j row', (ofGrammar g).table.rows.toList[j]? = some row' →
      ∀ e ∈ row'.actions.entries, decide (e.2 = .accept) = true → j = 1 := by
    rintro j row' hrow' ⟨x, a⟩ he ha
    rw [Array.getElem?_toList] at hrow'
    obtain rfl : a = .accept := of_decide_eq_true ha
    rw [mem_actions_iff hrow'] at he
    exact (eq_of_action?_accept wf he).1
  unfold acceptCells
  rw [countP_flatMap_of_unique (Array.getElem?_toList.trans hrow) hunique]
  split
  · next haccept =>
    have hentries : (row.actions.entries.filter fun e => e.2 = .accept) = [(.endOfInput, .accept)] := by
      refine filter_eq_singleton (nodup_keys_actions hrow).of_map ?_
      rintro ⟨x, a⟩
      rw [List.mem_filter, mem_actions_iff hrow, decide_eq_true_eq, Prod.mk.injEq]
      constructor
      · rintro ⟨ha, rfl⟩
        exact ⟨(eq_of_action?_accept wf ha).2, rfl⟩
      · rintro ⟨rfl, rfl⟩
        exact ⟨haccept, rfl⟩
    rw [List.countP_eq_length_filter, hentries, List.length_singleton]
  · next hnone =>
    rw [List.countP_eq_zero]
    rintro ⟨x, a⟩ he ha
    obtain rfl : a = .accept := of_decide_eq_true ha
    rw [mem_actions_iff hrow] at he
    obtain rfl := (eq_of_action?_accept wf he).2
    exact hnone he

/-- Acceptance is lost in its own cell alone. -/
theorem lostAccepts_eq (t : Tables)
    (h : ∀ c ∈ t.table.conflicts, c.previous = .accept → c.state = 1 ∧ c.terminal = .endOfInput) :
    t.lostAccepts = (t.history 1 .endOfInput).countP fun e => e.1 = .accept := by
  unfold lostAccepts history
  rw [List.countP_map, List.countP_filter]
  refine List.countP_congr fun c hc => ?_
  simp only [Function.comp_apply, Bool.and_eq_true, decide_eq_true_eq]
  exact ⟨fun hprevious => ⟨hprevious, h c hc hprevious⟩, And.left⟩

/-- **Acceptance is in one cell or lost in one conflict.** -/
theorem acceptCells_add_lostAccepts (wf : g.WellFormed) :
    (ofGrammar g).acceptCells + (ofGrammar g).lostAccepts = 1 := by
  obtain ⟨others, hcontenders, hnot, -⟩ := exists_contenders_accept wf
  have hlost : ∀ c ∈ (ofGrammar g).table.conflicts, c.previous = .accept →
      c.state = 1 ∧ c.terminal = .endOfInput := by
    rintro ⟨i, x, a, b⟩ hc rfl
    have hmem := mem_history.mpr hc
    rw [history_eq_zip_tail wf] at hmem
    exact eq_of_accept_mem_contenders wf (List.of_mem_zip hmem).1
  rw [acceptCells_eq wf, lostAccepts_eq _ hlost, history_eq_zip_tail wf, action?_eq_getLast? wf,
    hcontenders, List.tail_cons, countP_zip_fst_eq hnot]
  simp only [getLast?_cons_eq_self_iff hnot]
  split <;> rfl

/-- Acceptance has its place in some tables and is written there once. -/
structure AcceptsOnce (t : Tables) : Prop where
  /-- rule `0` replaces the fresh start symbol by the start symbol -/
  rule : t.grammar.rule? 0 = some ⟨.freshStart, #[.nonterminal t.grammar.start]⟩
  /-- its complete item is in state `1` and in no other -/
  item : ∀ i, t.automaton.HasItem i ⟨0, 1⟩ ↔ i = 1
  /-- state `0` leads to state `1` on the start symbol -/
  transition : ⟨0, 1, .nonterminal t.grammar.start⟩ ∈ t.automaton.transitions
  /-- no other transition leads to state `1` -/
  entered : ∀ e ∈ t.automaton.transitions, e.target = 1 → e = ⟨0, 1, .nonterminal t.grammar.start⟩
  /-- no transition leads to state `0` -/
  left : ∀ e ∈ t.automaton.transitions, e.target ≠ 0
  /-- no cell but that of state `1` and the end of the input holds acceptance -/
  cell : ∀ i x, t.table.action? i x = some .accept → i = 1 ∧ x = .endOfInput
  /-- nor does any other after a part of the actions of its state is written -/
  ever : ∀ i s, t.automaton.state? i = some s → ∀ l, l <+: s.candidates t.grammar t.follow →
    ∀ x, (writeActions i {} l).1.get? x = some .accept → i = 1 ∧ x = .endOfInput
  /-- this cell holds acceptance when no rule can be reduced there, and only then -/
  holds : t.table.action? 1 .endOfInput = some .accept ↔ ¬∃ k, t.CanReduce 1 .endOfInput k
  /-- acceptance is in one cell or lost in one conflict -/
  once : t.acceptCells + t.lostAccepts = 1
  /-- acceptance never takes the place of another action -/
  current : ∀ c ∈ t.table.conflicts, c.current ≠ .accept

/-- **Acceptance is written once, and only behind the start symbol.** With no more than `2 ^ 32` states,
`0` and `1` are the first numbers that a counter of `32` bits hands out, and no other states get them
(`Assembly.HoldsAutomaton`). -/
theorem acceptsOnce {defs : List RuleDef} {t : Tables} (h : ofRules defs = .ok t) :
    t.AcceptsOnce := by
  obtain ⟨g, hg, rfl⟩ := ofRules_eq_ok.mp h
  have wf := Grammar.wellFormed_of_augment hg
  constructor
  case rule => exact wf.rule?_zero
  case item => exact fun i => Automaton.hasItem_accept_iff wf
  case transition => exact Automaton.start_mem_transitions wf
  case entered =>
    exact fun e he htarget =>
      Automaton.eq_of_hasItem_accept wf he ((Automaton.hasItem_accept_iff wf).mpr htarget)
  case left => exact fun e he => Automaton.target_ne_zero wf he
  case cell => exact fun i x hcell => eq_of_action?_accept wf hcell
  case ever => exact fun i s hs l hl x hcell => eq_of_get?_writeActions_accept wf hs hl hcell
  case holds => exact action?_eq_accept_iff wf
  case once => exact acceptCells_add_lostAccepts wf
  case current =>
    intro c hc hcurrent
    obtain ⟨k, hreduce, -⟩ := exists_reduce_of_mem_conflicts wf hc
    rw [hreduce] at hcurrent
    cases hcurrent

/-- A start symbol that replaces itself and stands first in its own rules, so that acceptance is lost. -/
theorem acceptsOnce_cyclicRules : ∃ t,
    ofRules [⟨"S", ["S"]⟩, ⟨"S", ["S", "a"]⟩, ⟨"S", []⟩, ⟨"S", ["S"]⟩] = .ok t ∧ t.AcceptsOnce := by
  obtain ⟨g, hg⟩ : ∃ g, Grammar.augment
      [⟨"S", ["S"]⟩, ⟨"S", ["S", "a"]⟩, ⟨"S", []⟩, ⟨"S", ["S"]⟩] = .ok g :=
    Grammar.exists_augment (by decide) (by unfold RuleDef.IsValid; decide) (by decide) (by decide)
  have ht := ofRules_eq_ok.mpr ⟨g, hg, rfl⟩
  exact ⟨.ofGrammar g, ht, acceptsOnce ht⟩

end Tables

end ShiftReduce
