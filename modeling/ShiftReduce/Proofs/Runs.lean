import ShiftReduce.Parser
import ShiftReduce.Proofs.Cells

/-! # Steps and runs of the parser

What each kind of step says about the tables, and that the parser is deterministic: of two runs from one
configuration one begins with the other, so that all accepting runs reduce the same rules
(`Tables.rules_unique`). -/

namespace ShiftReduce

namespace Tables

/-- A rule list has tables when the grammar accepts it: those of its grammar. -/
theorem ofRules_eq_ok {defs : List RuleDef} {t : Tables} :
    ofRules defs = .ok t ↔ ∃ g, Grammar.augment defs = .ok g ∧ ofGrammar g = t := by
  unfold ofRules
  cases Grammar.augment defs with
  | error e => simp [Except.map]
  | ok g => simp [Except.map]

/-! ## Steps -/

section Steps

variable {t : Tables} {c d : Configuration}

/-- A reduction replaces the body of its rule or finds that there is none. -/
theorem reduce_cases (rule : Nat) :
    t.reduce rule c = .stuck ∨ ∃ d, t.reduce rule c = .reduced rule d := by
  unfold reduce
  split
  · exact Or.inl rfl
  · split
    · exact Or.inl rfl
    · split
      · exact Or.inl rfl
      · exact Or.inr ⟨_, rfl⟩

/-- A step shifts when the cell of the state and the lookahead says so. -/
theorem step_eq_shifted : t.step c = .shifted d ↔
    ∃ next, t.table.action? c.state c.lookahead = some (.shift next) ∧
      d = ⟨next :: c.states, c.input.tail⟩ := by
  unfold step
  cases haction : t.table.action? c.state c.lookahead with
  | none => simp
  | some action =>
    cases action with
    | shift next => simp [eq_comm]
    | reduce rule =>
      rcases reduce_cases (t := t) (c := c) rule with hstuck | ⟨e, hreduced⟩
      · simp [hstuck]
      · simp [hreduced]
    | accept => simp

/-- A reduction takes the rule's states off the stack and goes on from the one below. -/
theorem reduce_eq_reduced {rule rule' : Nat} : t.reduce rule c = .reduced rule' d ↔
    rule = rule' ∧ ∃ r top below next, t.grammar.rule? rule = some r ∧
      c.states.drop r.right.size = top :: below ∧ t.table.goto? top r.left = some next ∧
      d = ⟨next :: top :: below, c.input⟩ := by
  unfold reduce
  constructor
  · intro h
    split at h
    · cases h
    · next r hr =>
      split at h
      · cases h
      · next top below hdrop =>
        split at h
        · cases h
        · next next hgoto =>
          cases h
          exact ⟨rfl, r, top, below, next, hr, hdrop, hgoto, rfl⟩
  · rintro ⟨rfl, r, top, below, next, hr, hdrop, hgoto, rfl⟩
    simp only [hr, hdrop, hgoto]

/-- A step reduces when its cell says so and the reduction can be made. -/
theorem step_eq_reduced {rule : Nat} : t.step c = .reduced rule d ↔
    t.table.action? c.state c.lookahead = some (.reduce rule) ∧
      ∃ r top below next, t.grammar.rule? rule = some r ∧
        c.states.drop r.right.size = top :: below ∧ t.table.goto? top r.left = some next ∧
        d = ⟨next :: top :: below, c.input⟩ := by
  unfold step
  cases haction : t.table.action? c.state c.lookahead with
  | none => simp
  | some action =>
    cases action with
    | shift next => simp
    | accept => simp
    | reduce rule' =>
      simp only [reduce_eq_reduced, Option.some.injEq, Action.reduce.injEq]
      refine and_congr_right fun hrule => ?_
      rw [hrule]

/-- A step accepts when its cell says so. -/
theorem step_eq_accepted : t.step c = .accepted ↔
    t.table.action? c.state c.lookahead = some .accept := by
  unfold step
  cases haction : t.table.action? c.state c.lookahead with
  | none => simp
  | some action =>
    cases action with
    | shift next => simp
    | accept => simp
    | reduce rule =>
      rcases reduce_cases (t := t) (c := c) rule with hstuck | ⟨e, hreduced⟩
      · simp [hstuck]
      · simp [hreduced]

/-- A step rejects when its cell is empty. -/
theorem step_eq_rejected : t.step c = .rejected ↔
    t.table.action? c.state c.lookahead = none := by
  unfold step
  cases haction : t.table.action? c.state c.lookahead with
  | none => simp
  | some action =>
    cases action with
    | shift next => simp
    | accept => simp
    | reduce rule =>
      rcases reduce_cases (t := t) (c := c) rule with hstuck | ⟨e, hreduced⟩
      · simp [hstuck]
      · simp [hreduced]

/-- The parser stops: it accepts, or there is no action on the terminal ahead. -/
def Stops (t : Tables) (c : Configuration) : Prop := t.step c = .accepted ∨ t.step c = .rejected

end Steps

/-! ## Runs -/

namespace Reaches

variable {t : Tables} {c d e : Configuration} {n m : Nat} {rules more : List Nat}

/-- The input that is left ends the one that there was. -/
theorem suffix (h : t.Reaches c n rules d) : d.input <:+ c.input := by
  induction h with
  | refl => exact List.suffix_refl _
  | shift _ hstep ih =>
    obtain ⟨next, -, rfl⟩ := step_eq_shifted.mp hstep
    exact (List.tail_suffix _).trans ih
  | reduce _ hstep ih =>
    obtain ⟨-, r, top, below, next, -, -, -, rfl⟩ := step_eq_reduced.mp hstep
    exact ih

/-- One run after the other is a run. -/
theorem trans (h : t.Reaches c n rules d) (h' : t.Reaches d m more e) :
    t.Reaches c (n + m) (more ++ rules) e := by
  induction h' with
  | refl => exact h
  | shift _ hstep ih => exact ih.shift hstep
  | reduce _ hstep ih => exact ih.reduce hstep

/-- A run of more steps has a configuration behind the first ones. -/
theorem split (h : t.Reaches c (n + m) rules e) :
    ∃ d first last, t.Reaches c n first d ∧ t.Reaches d m last e ∧ rules = last ++ first := by
  induction m generalizing e rules with
  | zero => exact ⟨e, rules, [], h, .refl e, rfl⟩
  | succ m ih =>
    cases h with
    | shift h hstep =>
      obtain ⟨d, first, last, hfirst, hlast, rfl⟩ := ih h
      exact ⟨d, first, last, hfirst, hlast.shift hstep, rfl⟩
    | reduce h hstep =>
      obtain ⟨d, first, last, hfirst, hlast, rfl⟩ := ih h
      exact ⟨d, first, _ :: last, hfirst, hlast.reduce hstep, rfl⟩

/-- The number of steps determines where a run is and what it has reduced. -/
theorem unique (h : t.Reaches c n rules d) (h' : t.Reaches c n more e) :
    d = e ∧ rules = more := by
  induction h generalizing more e with
  | refl => cases h'; exact ⟨rfl, rfl⟩
  | shift _ hstep ih =>
    cases h' with
    | shift h' hstep' =>
      obtain ⟨rfl, rfl⟩ := ih h'
      rw [hstep] at hstep'
      cases hstep'
      exact ⟨rfl, rfl⟩
    | reduce h' hstep' =>
      obtain ⟨rfl, -⟩ := ih h'
      rw [hstep] at hstep'
      cases hstep'
  | reduce _ hstep ih =>
    cases h' with
    | shift h' hstep' =>
      obtain ⟨rfl, -⟩ := ih h'
      rw [hstep] at hstep'
      cases hstep'
    | reduce h' hstep' =>
      obtain ⟨rfl, rfl⟩ := ih h'
      rw [hstep] at hstep'
      cases hstep'
      exact ⟨rfl, rfl⟩

/-- There is no step where the parser stops. -/
theorem eq_zero_of_stops (h : t.Reaches c n rules d) (hc : t.Stops c) : n = 0 := by
  by_contra hn
  -- a run of at least one step has a first step, but to stop is no step
  obtain ⟨m, rfl⟩ := Nat.exists_eq_add_of_le' (Nat.one_le_iff_ne_zero.mpr hn)
  rw [Nat.add_comm] at h
  obtain ⟨e, first, last, hfirst, -, -⟩ := h.split
  unfold Stops at hc
  cases hfirst with
  | shift hrefl hstep =>
    cases hrefl
    rw [hstep] at hc
    simp at hc
  | reduce hrefl hstep =>
    cases hrefl
    rw [hstep] at hc
    simp at hc

/-- A run to where the parser stops is the longest from its configuration. -/
theorem le_of_stops (h : t.Reaches c n rules d) (hd : t.Stops d) (h' : t.Reaches c m more e) :
    m ≤ n := by
  by_contra hlt
  -- a longer run would go on from where the parser stops
  obtain ⟨k, rfl⟩ := Nat.exists_eq_add_of_le (Nat.le_of_not_le hlt)
  obtain ⟨d', first, last, hfirst, hlast, -⟩ := h'.split
  obtain ⟨rfl, -⟩ := h.unique hfirst
  have hk : k = 0 := hlast.eq_zero_of_stops hd
  omega

/-- Runs are about the steps alone. -/
theorem of_step_eq {t' : Tables} (hstep : t.step = t'.step) (h : t.Reaches c n rules d) :
    t'.Reaches c n rules d := by
  induction h with
  | refl => exact .refl _
  | shift _ h ih => exact ih.shift (hstep ▸ h)
  | reduce _ h ih => exact ih.reduce (hstep ▸ h)

end Reaches

/-- Tables that make the same steps accept the same words. -/
theorem accepts_of_step_eq {t t' : Tables} (hstep : t.step = t'.step) {word : List Terminal}
    {rules : List Nat} (h : t.Accepts word rules) : t'.Accepts word rules := by
  obtain ⟨n, c, hrun, hc⟩ := h
  exact ⟨n, c, hrun.of_step_eq hstep, hstep ▸ hc⟩

/-- **The accepting runs on a word reduce the same rules.** -/
theorem rules_unique {t : Tables} {word : List Terminal} {rules more : List Nat}
    (h : t.Accepts word rules) (h' : t.Accepts word more) : rules = more := by
  obtain ⟨n, c, hrun, hc⟩ := h
  obtain ⟨m, d, hrun', hd⟩ := h'
  obtain rfl : n = m :=
    Nat.le_antisymm (hrun'.le_of_stops (Or.inl hd) hrun) (hrun.le_of_stops (Or.inl hc) hrun')
  exact (hrun.unique hrun').2

/-! ## Running the parser -/

/-- Runs the parser for at most a number of steps. On acceptance it gives the rules that were reduced,
the latest first, before those from earlier. -/
def run (t : Tables) : Nat → Configuration → List Nat → Option (List Nat)
  | 0, _, _ => none
  | n + 1, c, earlier =>
    match t.step c with
    | .shifted d => t.run n d earlier
    | .reduced rule d => t.run n d (rule :: earlier)
    | .accepted => some earlier
    | .rejected | .stuck => none

/-- What the parser gives on running is an accepting run. -/
theorem exists_reaches_of_run {t : Tables} {n : Nat} {c : Configuration} {earlier rules : List Nat}
    (h : t.run n c earlier = some rules) :
    ∃ m d latest, t.Reaches c m latest d ∧ t.step d = .accepted ∧ rules = latest ++ earlier := by
  induction n generalizing c earlier with
  | zero => cases h
  | succ n ih =>
    unfold run at h
    -- by the kind of the first step
    split at h
    · next d hstep =>
      obtain ⟨m, e, latest, hrun, he, hrules⟩ := ih h
      exact ⟨1 + m, e, _, ((Reaches.refl c).shift hstep).trans hrun, he, by simpa using hrules⟩
    · next rule d hstep =>
      obtain ⟨m, e, latest, hrun, he, hrules⟩ := ih h
      exact ⟨1 + m, e, _, ((Reaches.refl c).reduce hstep).trans hrun, he, by simpa using hrules⟩
    · next hstep =>
      cases h
      exact ⟨0, c, [], .refl c, hstep, rfl⟩
    all_goals cases h

/-- A run that ends well within some number of steps accepts. -/
theorem accepts_of_run {t : Tables} {n : Nat} {word : List Terminal} {rules : List Nat}
    (h : t.run n (.initial word) [] = some rules) : t.Accepts word rules := by
  obtain ⟨m, d, latest, hrun, hd, hrules⟩ := exists_reaches_of_run h
  rw [List.append_nil] at hrules
  exact ⟨m, d, hrules ▸ hrun, hd⟩

end Tables

end ShiftReduce
