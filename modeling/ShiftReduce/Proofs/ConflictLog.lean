import ShiftReduce.Proofs.Cells

/-! # The log of conflicts

The conflicts of a cell tell, in their order, which action took the place of which: they are the pairs of
neighbours that differ among the actions that are written into the cell (`conflictsIn_writeActions`). A
state shifts a terminal before it reduces anything. So a shift stays in its cell unless it is lost in a
conflict (`ParseTable.action?_eq_shift_iff`). -/

namespace ShiftReduce

/-! ## Neighbours -/

/-- The pairs of neighbours in a list that differ. -/
def replacements {α : Type} [DecidableEq α] : List α → List (α × α)
  | a :: b :: rest =>
    if a = b then replacements (b :: rest) else (a, b) :: replacements (b :: rest)
  | _ => []

section Replacements

variable {α : Type} [DecidableEq α]

/-- What stands first and nowhere else is replaced unless it stands alone. -/
theorem exists_mem_replacements_iff {a : α} {l : List α} (h : a ∉ l) :
    (∃ b, (a, b) ∈ replacements (a :: l)) ↔ l ≠ [] := by
  cases l with
  | nil => simp [replacements]
  | cons b l =>
    have hne : a ≠ b := fun heq => h (heq ▸ List.mem_cons_self ..)
    refine iff_of_true ⟨b, ?_⟩ (List.cons_ne_nil _ _)
    unfold replacements
    rw [if_neg hne]
    exact List.mem_cons_self ..

omit [DecidableEq α] in
/-- What stands first and nowhere else is also the last only when it stands alone. -/
theorem getLast?_cons_eq_self_iff {a : α} {l : List α} (h : a ∉ l) :
    (a :: l).getLast? = some a ↔ l = [] := by
  rcases List.eq_nil_or_concat l with rfl | ⟨l, b, rfl⟩
  · simp
  · have hne : b ≠ a := fun heq => h (heq ▸ by simp)
    rw [List.concat_eq_append, ← List.cons_append, List.getLast?_concat]
    simp [hne]

end Replacements

/-! ## The conflicts of a cell -/

/-- What was lost and what took its place, in the conflicts on a terminal. -/
def conflictsIn (t : Terminal) (log : List Conflict) : List (Action × Action) :=
  (log.filter fun c => c.terminal = t).map fun c => (c.previous, c.current)

/-- The losses on a terminal are those of its conflicts. -/
theorem mem_conflictsIn {t : Terminal} {log : List Conflict} {a b : Action} :
    (a, b) ∈ conflictsIn t log ↔
      ∃ c ∈ log, c.terminal = t ∧ c.previous = a ∧ c.current = b := by
  unfold conflictsIn
  simp only [List.mem_map, List.mem_filter, decide_eq_true_eq, Prod.mk.injEq, and_assoc]

/-- **The conflicts of a cell are the replacements in it, in their order.** -/
theorem conflictsIn_writeActions (state : Nat) (cells : OrderedMap Terminal Action)
    (l : List (Terminal × Action)) (t : Terminal) :
    conflictsIn t (writeActions state cells l).2 = replacements (written cells l t) := by
  induction l generalizing cells with
  | nil =>
    rw [written_nil]
    cases cells.get? t <;> rfl
  | cons e l ih =>
    obtain ⟨t', current⟩ := e
    have hsplit : conflictsIn t (writeActions state cells ((t', current) :: l)).2 =
        conflictsIn t (conflict? state cells t' current).toList ++
          conflictsIn t (writeActions state (cells.insert t' current) l).2 := by
      unfold conflictsIn
      rw [← List.map_append, ← List.filter_append]
      rfl
    rw [hsplit, ih, written_cons]
    by_cases ht : t = t'
    · subst ht
      rw [if_pos rfl]
      -- the cell holds `current` now, so that this is what the rest begins with
      obtain ⟨rest, hrest⟩ : ∃ rest, written (cells.insert t current) l t = current :: rest := by
        unfold written
        simp
      rw [hrest]
      unfold conflict?
      cases cells.get? t with
      | none => rfl
      | some previous =>
        by_cases heq : previous = current
        · simp [conflictsIn, replacements, heq]
        · simp [conflictsIn, replacements, Option.filter, heq]
    · rw [if_neg ht]
      -- a conflict is about the cell that is written
      have hother : conflictsIn t (conflict? state cells t' current).toList = [] := by
        unfold conflictsIn conflict?
        cases (cells.get? t').filter (· ≠ current) <;> simp [Ne.symm ht]
      rw [hother, List.nil_append]

/-! ## Shifts -/

/-- What is left of a list without repetitions is one element when only that one is kept. -/
theorem filter_eq_singleton {α : Type} {l : List α} {p : α → Bool} {a : α} (hl : l.Nodup)
    (h : ∀ b, b ∈ l.filter p ↔ b = a) : l.filter p = [a] := by
  refine List.perm_singleton.mp ?_
  rw [List.perm_ext_iff_of_nodup (hl.filter p) (List.nodup_singleton a)]
  simpa only [List.mem_singleton] using h

section Shifts

variable {g : Grammar} {s : State} {i : Nat} {t : Terminal} {j : Nat}

/-- What a state offers on a terminal that it can shift begins with the shift, which does not come
again. -/
theorem written_candidates_of_shift (follow : FollowSets) (wf : g.WellFormed)
    (hs : (Automaton.ofGrammar g).state? i = some s) (h : (.terminal t, j) ∈ s.edges) :
    ∃ rest, written {} (s.candidates g follow) t = .shift j :: rest ∧ .shift j ∉ rest := by
  have hshifts : (s.shifts.filter fun e => e.1 = t) = [(t, j)] := by
    refine filter_eq_singleton (Automaton.nodup_shifts wf hs) fun e => ?_
    obtain ⟨t', j'⟩ := e
    rw [List.mem_filter, State.mem_shifts, decide_eq_true_eq, Prod.mk.injEq]
    constructor
    · rintro ⟨hedge, rfl⟩
      -- a symbol has one edge
      have hsame := List.inj_on_of_nodup_map (Automaton.nodup_edges_keys wf hs) hedge h rfl
      exact ⟨rfl, (Prod.mk.inj hsame).2⟩
    · rintro ⟨rfl, rfl⟩
      exact ⟨h, rfl⟩
  refine ⟨(((s.reduces g).flatMap (reductionsOf g follow)).filter fun e => e.1 = t).map (·.2), ?_, ?_⟩
  · unfold written State.candidates
    rw [List.filter_append, List.filter_map]
    simp only [Function.comp_def]
    rw [hshifts]
    rfl
  · intro hmem
    obtain ⟨⟨t', a⟩, ha, heq⟩ := List.mem_map.mp hmem
    obtain ⟨rule, -, hoffer⟩ := List.mem_flatMap.mp (List.mem_filter.mp ha).1
    rcases mem_reductionsOf.mp hoffer with ⟨-, -, rfl⟩ | ⟨-, rfl, -⟩
    all_goals cases heq

/-- **A shift is in its cell unless a conflict tells that it was lost.** -/
theorem ParseTable.action?_eq_shift_iff (follow : FollowSets) (wf : g.WellFormed)
    (hs : (Automaton.ofGrammar g).state? i = some s) (h : (.terminal t, j) ∈ s.edges) :
    (ofAutomaton g follow (.ofGrammar g)).action? i t = some (.shift j) ↔
      ¬∃ c ∈ (ofAutomaton g follow (.ofGrammar g)).conflicts,
        c.state = i ∧ c.terminal = t ∧ c.previous = .shift j := by
  obtain ⟨rest, hwritten, hrest⟩ := written_candidates_of_shift follow wf hs h
  have hlog : (∃ c ∈ (ofAutomaton g follow (.ofGrammar g)).conflicts,
      c.state = i ∧ c.terminal = t ∧ c.previous = .shift j) ↔ rest ≠ [] := by
    rw [← exists_mem_replacements_iff hrest, ← hwritten, ← conflictsIn_writeActions i]
    constructor
    · rintro ⟨c, hc, rfl, ht, hprevious⟩
      obtain ⟨s', hs', hc⟩ := mem_conflicts.mp hc
      obtain rfl := Option.some.inj (hs.symm.trans hs')
      exact ⟨c.current, mem_conflictsIn.mpr ⟨c, hc, ht, hprevious, rfl⟩⟩
    · rintro ⟨b, hb⟩
      obtain ⟨c, hc, ht, hprevious, -⟩ := mem_conflictsIn.mp hb
      obtain rfl : c.state = i := (mem_writeActions_snd hc).1
      exact ⟨c, mem_conflicts.mpr ⟨s, hs, hc⟩, rfl, ht, hprevious⟩
  rw [action?_ofAutomaton, hs, Option.bind_some, hwritten, getLast?_cons_eq_self_iff hrest, hlog,
    not_not]

end Shifts

end ShiftReduce
