import ShiftReduce.ParseTable
import ShiftReduce.Proofs.FollowSets
import ShiftReduce.Proofs.Paths

/-! # The cells of the tables

A cell holds the last action that was written into it (`get?_writeActions`), and when no action was lost
all that were written into a cell are the same (`eq_of_mem_written`). So an action of the table is always
a candidate of the state (`ParseTable.mem_candidates_of_action?`), and in a consistent table every
candidate is the action of its cell (`ParseTable.action?_of_isConsistent`). -/

namespace ShiftReduce

/-! ## Writing a row -/

section WriteActions

variable {cells : OrderedMap Terminal Action} {l : List (Terminal × Action)} {t : Terminal}

/-- What is or will be written into a cell, in this order. -/
def written (cells : OrderedMap Terminal Action) (l : List (Terminal × Action)) (t : Terminal) :
    List Action :=
  (cells.get? t).toList ++ (l.filter fun e => e.1 = t).map (·.2)

/-- Nothing more is written than what the cell has. -/
@[simp] theorem written_nil : written cells [] t = (cells.get? t).toList :=
  List.append_nil _

/-- The first action of a list goes into its cell before the others. -/
theorem written_cons (t' : Terminal) (current : Action) :
    written cells ((t', current) :: l) t =
      if t = t' then (cells.get? t).toList ++ written (cells.insert t' current) l t
      else written (cells.insert t' current) l t := by
  unfold written
  by_cases ht : t = t'
  · subst ht
    simp
  · simp [ht, Ne.symm ht]

/-- What is written to a cell is what it has and what comes to it. -/
theorem mem_written {a : Action} :
    a ∈ written cells l t ↔ cells.get? t = some a ∨ (t, a) ∈ l := by
  unfold written
  rw [List.mem_append, Option.mem_toList, List.mem_map]
  refine or_congr Iff.rfl ⟨?_, fun h => ⟨(t, a), by simpa using h, rfl⟩⟩
  rintro ⟨⟨t', a'⟩, h, rfl⟩
  obtain ⟨hl, ht⟩ := List.mem_filter.mp h
  rwa [← of_decide_eq_true ht]

/-- A cell that is filled has something written to it. -/
theorem written_insert_ne_nil (a : Action) : written (cells.insert t a) l t ≠ [] := by
  intro h
  have ha : a ∈ written (cells.insert t a) l t := mem_written.mpr (Or.inl (by simp))
  rw [h] at ha
  exact List.not_mem_nil ha

/-- **A cell holds the last action that was written into it.** -/
theorem get?_writeActions (state : Nat) :
    (writeActions state cells l).1.get? t = (written cells l t).getLast? := by
  induction l generalizing cells with
  | nil =>
    rw [written_nil]
    cases h : cells.get? t <;> simp [writeActions, h]
  | cons e l ih =>
    obtain ⟨t', current⟩ := e
    show (writeActions state (cells.insert t' current) l).1.get? t = _
    -- the action is written first and replaced by what comes later
    rw [ih, written_cons]
    split
    · next ht =>
      subst ht
      rw [List.getLast?_append_of_ne_nil _ (written_insert_ne_nil current)]
    · rfl

/-- **Without conflicts all actions that meet in a cell are the same.** -/
theorem eq_of_mem_written {state : Nat} (h : (writeActions state cells l).2 = [])
    {a b : Action} (ha : a ∈ written cells l t) (hb : b ∈ written cells l t) : a = b := by
  induction l generalizing cells with
  | nil =>
    rw [written_nil, Option.mem_toList] at ha hb
    exact Option.some.inj (ha.symm.trans hb)
  | cons e l ih =>
    obtain ⟨t', current⟩ := e
    obtain ⟨hlost, hrest⟩ := List.append_eq_nil_iff.mp h
    have same {a : Action} (ha : a ∈ written cells ((t', current) :: l) t) :
        a ∈ written (cells.insert t' current) l t := by
      rw [written_cons] at ha
      split at ha
      · next ht =>
        subst ht
        rcases List.mem_append.mp ha with ha | ha
        · -- what the cell held before is what is written now, or it would be lost
          rw [Option.mem_toList] at ha
          have heq : a = current := by
            unfold conflict? at hlost
            rw [ha] at hlost
            by_contra hne
            simp [hne] at hlost
          rw [heq]
          exact mem_written.mpr (Or.inl (by simp))
        · exact ha
      · exact ha
    exact ih hrest (same ha) (same hb)

/-- When all actions that meet in each cell are the same, there are no conflicts. -/
theorem writeActions_snd_eq_nil {state : Nat}
    (h : ∀ t, ∀ a ∈ written cells l t, ∀ b ∈ written cells l t, a = b) :
    (writeActions state cells l).2 = [] := by
  induction l generalizing cells with
  | nil => rfl
  | cons e l ih =>
    obtain ⟨t', current⟩ := e
    -- what the cell holds is what is written now
    have hlost : conflict? state cells t' current = none := by
      unfold conflict?
      cases hcell : cells.get? t' with
      | none => rfl
      | some previous =>
        have heq : previous = current := h t' previous (mem_written.mpr (Or.inl hcell)) current
          (mem_written.mpr (Or.inr (List.mem_cons_self ..)))
        simp [heq]
    -- what meets in a cell of the rest meets in it here, too
    have keep {t : Terminal} {a : Action} (ha : a ∈ written (cells.insert t' current) l t) :
        a ∈ written cells ((t', current) :: l) t := by
      rw [written_cons]
      split
      · exact List.mem_append_right _ ha
      · exact ha
    show (conflict? state cells t' current).toList ++
      (writeActions state (cells.insert t' current) l).2 = []
    rw [hlost, ih fun t a ha b hb => h t a (keep ha) b (keep hb)]
    rfl

/-- Without conflicts every action that is written stays. -/
theorem get?_writeActions_of_mem {state : Nat} (h : (writeActions state cells l).2 = [])
    {a : Action} (ha : a ∈ written cells l t) : (writeActions state cells l).1.get? t = some a := by
  rw [get?_writeActions]
  have hne : written cells l t ≠ [] := List.ne_nil_of_mem ha
  rw [List.getLast?_eq_some_getLast hne]
  exact congrArg some (eq_of_mem_written h (List.getLast_mem hne) ha)

/-- Setting a cell adds no other entry. -/
theorem mem_assign {a : Action} {t' : Terminal} {current : Action} {entries : List (Terminal × Action)}
    (h : (t, a) ∈ OrderedMap.assign t' current entries) :
    (t, a) = (t', current) ∨ (t, a) ∈ entries := by
  induction entries with
  | nil => exact Or.inl (List.mem_singleton.mp h)
  | cons e entries ih =>
    obtain ⟨t₁, a₁⟩ := e
    unfold OrderedMap.assign at h
    split at h
    · exact (List.mem_cons.mp h).imp_right (List.mem_cons_of_mem _)
    · rcases List.mem_cons.mp h with h | h
      · exact Or.inr (h ▸ List.mem_cons_self ..)
      · exact (ih h).imp_right (List.mem_cons_of_mem _)

/-- All entries of a row were there before or are written. -/
theorem mem_entries_writeActions {state : Nat} {a : Action}
    (h : (t, a) ∈ (writeActions state cells l).1.entries) : (t, a) ∈ cells.entries ∨ (t, a) ∈ l := by
  induction l generalizing cells with
  | nil => exact Or.inl h
  | cons e l ih =>
    obtain ⟨t', current⟩ := e
    have hrest : (t, a) ∈ (writeActions state (cells.insert t' current) l).1.entries := h
    rcases ih hrest with h | h
    · rcases mem_assign h with h | h
      · exact Or.inr (h ▸ List.mem_cons_self ..)
      · exact Or.inl h
    · exact Or.inr (List.mem_cons_of_mem _ h)

/-- Both actions of a conflict were there before or are written into its cell. -/
theorem mem_writeActions_snd {state : Nat} {c : Conflict}
    (h : c ∈ (writeActions state cells l).2) :
    c.state = state ∧ ((c.terminal, c.previous) ∈ cells.entries ∨ (c.terminal, c.previous) ∈ l) ∧
      (c.terminal, c.current) ∈ l := by
  induction l generalizing cells with
  | nil => exact absurd h List.not_mem_nil
  | cons e l ih =>
    obtain ⟨t', current⟩ := e
    rcases List.mem_append.mp h with h | h
    · rw [Option.mem_toList, conflict?, Option.map_eq_some_iff] at h
      obtain ⟨previous, hprevious, rfl⟩ := h
      have hcell := OrderedMap.mem_entries_of_get? (Option.filter_eq_some_iff.mp hprevious).1
      exact ⟨rfl, Or.inl hcell, List.mem_cons_self ..⟩
    · obtain ⟨hstate, hprevious, hcurrent⟩ := ih h
      refine ⟨hstate, ?_, List.mem_cons_of_mem _ hcurrent⟩
      rcases hprevious with hprevious | hprevious
      · rcases mem_assign hprevious with heq | hprevious
        · exact Or.inr (heq ▸ List.mem_cons_self ..)
        · exact Or.inl hprevious
      · exact Or.inr (List.mem_cons_of_mem _ hprevious)

end WriteActions

/-! ## What a state offers -/

namespace State

variable {g : Grammar} {follow : FollowSets} {s : State}

/-- The shifts of a state are its edges over terminals. -/
theorem mem_shifts {t : Terminal} {j : Nat} :
    (t, j) ∈ s.shifts ↔ (.terminal t, j) ∈ s.edges := by
  unfold shifts
  rw [List.mem_filterMap]
  constructor
  · rintro ⟨⟨x, j'⟩, hedge, hx⟩
    simp only [Option.map_eq_some_iff, Symbol.terminal?_eq_some, Prod.mk.injEq] at hx
    obtain ⟨_, rfl, rfl, rfl⟩ := hx
    exact hedge
  · exact fun h => ⟨_, h, rfl⟩

/-- The reductions of a state are the rules of its complete items. -/
theorem mem_reduces {rule : Nat} :
    rule ∈ s.reduces g ↔ ∃ i ∈ s.items, i.isComplete g = true ∧ i.rule = rule := by
  unfold reduces ItemSet.completeRules
  simp only [List.mem_map, List.mem_filter, ItemSet.mem_def, and_assoc]

/-- Where a nonterminal leads is its edge, as there is but one. -/
theorem lookup_gotos (h : (s.edges.map (·.1)).Nodup) {n : Nonterminal} {j : Nat} :
    OrderedMap.lookup n s.gotos = some j ↔ (.nonterminal n, j) ∈ s.edges := by
  obtain ⟨items, edges⟩ := s
  show OrderedMap.lookup n (State.gotos ⟨items, edges⟩) = some j ↔ _ ∈ edges
  induction edges with
  | nil => simp [State.gotos, OrderedMap.lookup]
  | cons e edges ih =>
    obtain ⟨x, target⟩ := e
    obtain ⟨hx, hnodup⟩ := List.nodup_cons.mp h
    have hrest := ih hnodup
    cases x with
    | terminal t =>
      rw [List.mem_cons, or_iff_right (by simp)]
      exact hrest
    | nonterminal m =>
      show (if n = m then some target else OrderedMap.lookup n (State.gotos ⟨items, edges⟩)) = _ ↔ _
      rw [List.mem_cons]
      -- the first edge on a nonterminal is the only one
      by_cases hm : n = m
      · subst hm
        have hnew : (Symbol.nonterminal n, j) ∉ edges := fun hj =>
          hx (List.mem_map_of_mem (f := (·.1)) hj)
        simp [hnew, eq_comm]
      · simpa [hm] using hrest

end State

/-- **A complete rule is reduced on what may follow its head**, and rule 0 accepts at the end. -/
theorem mem_reductionsOf {g : Grammar} {follow : FollowSets} {rule : Nat} {t : Terminal}
    {a : Action} :
    (t, a) ∈ reductionsOf g follow rule ↔
      rule = 0 ∧ t = .endOfInput ∧ a = .accept ∨
      rule ≠ 0 ∧ a = .reduce rule ∧ ∃ r, g.rule? rule = some r ∧ follow.Has r.left t := by
  unfold reductionsOf
  by_cases hzero : rule = 0
  · simp [hzero]
  · rw [if_neg hzero]
    unfold FollowSets.Has
    cases hset : (g.rule? rule).bind fun r => follow.get? r.left with
    -- without a rule or a `FOLLOW` set nothing is offered
    | none =>
      rw [Option.bind_eq_none_iff] at hset
      simp only [List.not_mem_nil, hzero, false_and, false_or, false_iff]
      rintro ⟨-, -, r, hr, set, hget, -⟩
      rw [hset r hr] at hget
      cases hget
    | some set =>
      obtain ⟨r, hr, hget⟩ := Option.bind_eq_some_iff.mp hset
      simp [hzero, hr, hget, and_comm, eq_comm]

/-- The actions that a state offers. -/
theorem State.mem_candidates {g : Grammar} {follow : FollowSets} {s : State} {t : Terminal}
    {a : Action} :
    (t, a) ∈ s.candidates g follow ↔
      (∃ j, a = .shift j ∧ (.terminal t, j) ∈ s.edges) ∨
      ∃ i ∈ s.items, i.isComplete g = true ∧ (t, a) ∈ reductionsOf g follow i.rule := by
  unfold candidates
  rw [List.mem_append, List.mem_map, List.mem_flatMap]
  refine or_congr ⟨?_, ?_⟩ ⟨?_, ?_⟩
  · rintro ⟨⟨t', j⟩, hj, heq⟩
    obtain ⟨rfl, rfl⟩ := Prod.mk.inj heq
    exact ⟨j, rfl, mem_shifts.mp hj⟩
  · rintro ⟨j, rfl, hj⟩
    exact ⟨(t, j), mem_shifts.mpr hj, rfl⟩
  · rintro ⟨rule, hrule, ha⟩
    obtain ⟨i, hi, hcomplete, rfl⟩ := mem_reduces.mp hrule
    exact ⟨i, hi, hcomplete, ha⟩
  · rintro ⟨i, hi, hcomplete, ha⟩
    exact ⟨i.rule, mem_reduces.mpr ⟨i, hi, hcomplete, rfl⟩, ha⟩

section Candidates

variable {g : Grammar} {follow : FollowSets} {s : State} {i : Nat} {t : Terminal}

/-- A state offers to shift along its edges. -/
theorem mem_candidates_shift {j : Nat} :
    (t, .shift j) ∈ s.candidates g follow ↔ (.terminal t, j) ∈ s.edges := by
  rw [State.mem_candidates]
  constructor
  · rintro (⟨_, hj, hedge⟩ | ⟨item, -, -, hmem⟩)
    · cases hj
      exact hedge
    · rcases mem_reductionsOf.mp hmem with ⟨-, -, hfalse⟩ | ⟨-, hfalse, -⟩
      all_goals cases hfalse
  · exact fun h => Or.inl ⟨j, rfl, h⟩

/-- A complete item has its marker at the end of the body. -/
theorem hasItem_complete_iff (wf : g.WellFormed) (hs : (Automaton.ofGrammar g).state? i = some s)
    {rule : Nat} {r : Rule} (hr : g.rule? rule = some r) :
    (∃ item ∈ s.items, item.isComplete g = true ∧ item.rule = rule) ↔
      (Automaton.ofGrammar g).HasItem i ⟨rule, r.right.size⟩ := by
  constructor
  · rintro ⟨⟨_, marker⟩, hitem, hcomplete, rfl⟩
    obtain ⟨r', hr', hle⟩ := Automaton.exists_rule_of_mem_items wf hs hitem
    obtain ⟨r'', hr'', hge⟩ := Item.isComplete_iff.mp hcomplete
    obtain rfl : r = r' := Option.some.inj (hr.symm.trans hr')
    obtain rfl : r = r'' := Option.some.inj (hr.symm.trans hr'')
    obtain rfl : marker = r.right.size := Nat.le_antisymm hle hge
    exact ⟨s, hs, hitem⟩
  · intro h
    exact ⟨_, h.mem_items hs, Item.isComplete_iff.mpr ⟨r, hr, Nat.le_refl _⟩, rfl⟩

/-- A state offers to accept at the end of the input when the start symbol has been read. -/
theorem mem_candidates_accept (wf : g.WellFormed)
    (hs : (Automaton.ofGrammar g).state? i = some s) :
    (t, .accept) ∈ s.candidates g follow ↔
      t = .endOfInput ∧ (Automaton.ofGrammar g).HasItem i ⟨0, 1⟩ := by
  rw [State.mem_candidates, show (⟨0, 1⟩ : Item) = ⟨0, #[Symbol.nonterminal g.start].size⟩ from rfl,
    ← hasItem_complete_iff wf hs wf.rule?_zero]
  constructor
  · rintro (⟨_, hj, -⟩ | ⟨item, hitem, hcomplete, hmem⟩)
    · cases hj
    · rcases mem_reductionsOf.mp hmem with ⟨hzero, ht, -⟩ | ⟨-, hfalse, -⟩
      · exact ⟨ht, item, hitem, hcomplete, hzero⟩
      · cases hfalse
  · rintro ⟨rfl, item, hitem, hcomplete, hzero⟩
    exact Or.inr ⟨item, hitem, hcomplete, mem_reductionsOf.mpr (Or.inl ⟨hzero, rfl, rfl⟩)⟩

/-- A state offers to reduce the rules of its complete items on what follows their heads. -/
theorem mem_candidates_reduce (wf : g.WellFormed)
    (hs : (Automaton.ofGrammar g).state? i = some s) {rule : Nat} :
    (t, .reduce rule) ∈ s.candidates g follow ↔
      rule ≠ 0 ∧ ∃ r, g.rule? rule = some r ∧ follow.Has r.left t ∧
        (Automaton.ofGrammar g).HasItem i ⟨rule, r.right.size⟩ := by
  rw [State.mem_candidates]
  constructor
  · rintro (⟨_, hj, -⟩ | ⟨item, hitem, hcomplete, hmem⟩)
    · cases hj
    · rcases mem_reductionsOf.mp hmem with ⟨-, -, hfalse⟩ | ⟨hzero, hrule, r, hr, hfollow⟩
      · cases hfalse
      · cases hrule
        exact ⟨hzero, r, hr, hfollow,
          (hasItem_complete_iff wf hs hr).mp ⟨item, hitem, hcomplete, rfl⟩⟩
  · rintro ⟨hzero, r, hr, hfollow, hhas⟩
    obtain ⟨item, hitem, hcomplete, rfl⟩ := (hasItem_complete_iff wf hs hr).mpr hhas
    refine Or.inr ⟨item, hitem, hcomplete, mem_reductionsOf.mpr (Or.inr ⟨hzero, rfl, r, hr, hfollow⟩)⟩

/-- A state shifts a terminal in one way only. -/
theorem Automaton.nodup_shifts (wf : g.WellFormed) (hs : (Automaton.ofGrammar g).state? i = some s) :
    s.shifts.Nodup := by
  refine (Automaton.nodup_edges_keys wf hs).of_map.filterMap fun e e' b hb hb' => ?_
  simp only [Option.mem_def, Option.map_eq_some_iff, Symbol.terminal?_eq_some] at hb hb'
  obtain ⟨t, ht, rfl⟩ := hb
  obtain ⟨t', ht', heq⟩ := hb'
  obtain ⟨rfl, htarget⟩ := Prod.mk.inj heq
  exact Prod.ext (ht.trans ht'.symm) htarget.symm

end Candidates

/-! ## Looking up -/

namespace ParseTable

variable {g : Grammar} {follow : FollowSets} {a : Automaton} {i : Nat}

/-- Every state has a row, and every row is that of its state. -/
theorem getElem?_rows :
    (ofAutomaton g follow a).rows[i]? = (a.state? i).map fun s => (rowOf g follow i s).1 := by
  unfold ofAutomaton Automaton.state?
  simp only [List.getElem?_toArray, List.getElem?_map, List.getElem?_zipIdx,
    Array.getElem?_toList, Option.map_map, Nat.zero_add]
  rfl

/-- A cell has the last of the candidates written to it. -/
theorem action?_ofAutomaton (t : Terminal) :
    (ofAutomaton g follow a).action? i t = (a.state? i).bind fun s =>
      (written {} (s.candidates g follow) t).getLast? := by
  unfold action?
  rw [getElem?_rows]
  cases a.state? i with
  | none => rfl
  | some s => exact get?_writeActions i

/-- **Every action is a candidate of the state.** -/
theorem mem_candidates_of_action? {t : Terminal} {action : Action}
    (h : (ofAutomaton g follow a).action? i t = some action) :
    ∃ s, a.state? i = some s ∧ (t, action) ∈ s.candidates g follow := by
  rw [action?_ofAutomaton, Option.bind_eq_some_iff] at h
  obtain ⟨s, hs, hlast⟩ := h
  refine ⟨s, hs, ?_⟩
  rcases mem_written.mp (List.mem_of_getLast? hlast) with hcell | hmem
  · cases hcell
  · exact hmem

/-- The conflicts of a table are those of its rows. -/
theorem mem_conflicts {c : Conflict} :
    c ∈ (ofAutomaton g follow a).conflicts ↔ ∃ s, a.state? c.state = some s ∧
      c ∈ (writeActions c.state {} (s.candidates g follow)).2 := by
  unfold ofAutomaton
  rw [List.mem_flatMap]
  constructor
  · rintro ⟨row, hrow, hc⟩
    obtain ⟨⟨s, i⟩, hs, rfl⟩ := List.mem_map.mp hrow
    rw [List.mem_zipIdx_iff_getElem?, Array.getElem?_toList] at hs
    obtain rfl : c.state = i := (mem_writeActions_snd hc).1
    exact ⟨s, hs, hc⟩
  · rintro ⟨s, hs, hc⟩
    refine ⟨_, List.mem_map.mpr ⟨(s, c.state), ?_, rfl⟩, hc⟩
    rw [List.mem_zipIdx_iff_getElem?, Array.getElem?_toList]
    exact hs

/-- A table is consistent when no row has a conflict. -/
theorem isConsistent_iff_writeActions :
    (ofAutomaton g follow a).isConsistent = true ↔ ∀ i s, a.state? i = some s →
      (writeActions i {} (s.candidates g follow)).2 = [] := by
  unfold isConsistent ofAutomaton
  rw [List.isEmpty_iff, List.flatMap_eq_nil_iff]
  constructor
  · intro h i s hs
    refine h _ (List.mem_map.mpr ⟨(s, i), ?_, rfl⟩)
    rw [List.mem_zipIdx_iff_getElem?, Array.getElem?_toList]
    exact hs
  · intro h row hrow
    obtain ⟨⟨s, i⟩, hmem, rfl⟩ := List.mem_map.mp hrow
    rw [List.mem_zipIdx_iff_getElem?, Array.getElem?_toList] at hmem
    exact h i s hmem

/-- **A table is consistent when no state offers two actions on one terminal.** -/
theorem isConsistent_iff :
    (ofAutomaton g follow a).isConsistent = true ↔ ∀ i s, a.state? i = some s →
      ∀ t b c, (t, b) ∈ s.candidates g follow → (t, c) ∈ s.candidates g follow → b = c := by
  rw [isConsistent_iff_writeActions]
  refine forall_congr' fun i => forall_congr' fun s => imp_congr_right fun _ => ?_
  constructor
  · intro h t b c hb hc
    exact eq_of_mem_written h (mem_written.mpr (Or.inr hb)) (mem_written.mpr (Or.inr hc))
  · intro h
    refine writeActions_snd_eq_nil fun t b hb c hc => ?_
    -- the row begins without cells, so what is written is what the state offers
    rcases mem_written.mp hb with hb | hb
    · cases hb
    · rcases mem_written.mp hc with hc | hc
      · cases hc
      · exact h t b c hb hc

/-- **In a consistent table every candidate is the action of its cell.** -/
theorem action?_of_isConsistent (h : (ofAutomaton g follow a).isConsistent = true) {s : State}
    (hs : a.state? i = some s) {t : Terminal} {action : Action}
    (hmem : (t, action) ∈ s.candidates g follow) :
    (ofAutomaton g follow a).action? i t = some action := by
  rw [action?_ofAutomaton, hs, Option.bind_some, ← get?_writeActions i]
  exact get?_writeActions_of_mem (isConsistent_iff_writeActions.mp h i s hs)
    (mem_written.mpr (Or.inr hmem))

/-- **Where a nonterminal leads is told by the edges.** -/
theorem goto?_eq_some (wf : g.WellFormed) {n : Nonterminal} {j : Nat} :
    (ofAutomaton g follow (.ofGrammar g)).goto? i n = some j ↔
      ∃ s, (Automaton.ofGrammar g).state? i = some s ∧ (.nonterminal n, j) ∈ s.edges := by
  unfold goto?
  rw [getElem?_rows, Option.bind_eq_some_iff]
  constructor
  · rintro ⟨row, hrow, hj⟩
    obtain ⟨s, hs, rfl⟩ := Option.map_eq_some_iff.mp hrow
    exact ⟨s, hs, (State.lookup_gotos (Automaton.nodup_edges_keys wf hs)).mp hj⟩
  · rintro ⟨s, hs, hj⟩
    refine ⟨_, Option.map_eq_some_iff.mpr ⟨s, hs, rfl⟩, ?_⟩
    exact (State.lookup_gotos (Automaton.nodup_edges_keys wf hs)).mpr hj

end ParseTable

end ShiftReduce
