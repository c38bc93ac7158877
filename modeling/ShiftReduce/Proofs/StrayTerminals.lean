import ShiftReduce.Proofs.ConflictHistory
import ShiftReduce.Proofs.NumbersByNames
import ShiftReduce.Proofs.Reachability

/-! # Terminals of rules that are not reached

The automaton is made of rules whose heads are reachable (`ItemSet.isReached_of_next?`), so that no state
shifts a terminal that only other rules have. `FOLLOW` is made of all rules. Such a terminal is behind a
reachable nonterminal when a nonterminal that is not reachable derives the two side by side
(`Grammar.IsStray.follows_iff`), and then it is a lookahead of reductions. They are all that there is in
its column (`Tables.strayColumn`), and need not be missing (`Tables.exists_reduce_on_stray`). -/

namespace ShiftReduce

/-! ## Symbols that are reached -/

namespace Grammar

variable {g : Grammar} {x : Terminal} {n : Nonterminal}

/-- A nonterminal is reachable, or a terminal stands in the body of a rule with a reachable head. -/
def Reaches (g : Grammar) : Symbol → Prop
  | .nonterminal n => g.IsReachable n
  | .terminal x => ∃ r ∈ g.inputRules, g.IsReachable r.left ∧ .terminal x ∈ r.right.toList

/-- The bodies of rules with reachable heads have symbols that are reached only. -/
theorem IsReachable.reaches {r : Rule} (h : g.IsReachable r.left) (hr : r ∈ g.inputRules) {y : Symbol}
    (hy : y ∈ r.right.toList) : g.Reaches y := by
  cases y with
  | nonterminal n => exact h.rule hr hy
  | terminal x => exact ⟨r, hr, h, hy⟩

/-- What a reachable nonterminal derives has symbols that are reached only, also when nonterminals without
rules vanish. -/
theorem IsReachable.reaches_of_derives {m : Nonterminal} (h : g.IsReachable m) {form : List Symbol}
    (hform : Derives g.Expands [.nonterminal m] form) : ∀ y ∈ form, g.Reaches y := by
  refine hform.forall_mem ?_ fun y hy => ?_
  · rintro _ _ (⟨r, hr, rfl, rfl⟩ | ⟨-, rfl⟩) hleft y hy
    · exact IsReachable.reaches hleft hr hy
    · cases hy
  · rw [List.mem_singleton.mp hy]
    exact h

/-- When the rules of the start symbol have no other nonterminals, nothing else is reachable. -/
theorem isReachable_iff_eq_start (h : ∀ r ∈ g.inputRules, r.left = g.start →
    ∀ n, .nonterminal n ∈ r.right.toList → n = g.start) : g.IsReachable n ↔ n = g.start := by
  constructor
  · intro hn
    induction hn with
    | start => rfl
    | rule _ hr hmem ih => exact h _ hr ih _ hmem
  · rintro rfl
    exact .start

/-- A terminal stands in bodies, but only in those of rules whose heads are not reachable. -/
structure IsStray (g : Grammar) (x : Terminal) : Prop where
  /-- there is a rule with the terminal -/
  occurs : ∃ r ∈ g.inputRules, .terminal x ∈ r.right.toList
  /-- its head is not reachable -/
  not_isReachable : ∀ r ∈ g.inputRules, .terminal x ∈ r.right.toList → ¬ g.IsReachable r.left

/-- A nonterminal that is not reachable derives a form with the terminal directly behind `n`. -/
def FollowsUnreached (g : Grammar) (n : Nonterminal) (x : Terminal) : Prop :=
  ∃ m, ¬ g.IsReachable m ∧ ∃ before after,
    Derives g.Expands [.nonterminal m] (before ++ .nonterminal n :: .terminal x :: after)

/-- The bodies of rules whose heads are not reachable have no reachable nonterminals. -/
def IsSeparated (g : Grammar) : Prop :=
  ∀ r ∈ g.inputRules, ¬ g.IsReachable r.left →
    ∀ n, .nonterminal n ∈ r.right.toList → ¬ g.IsReachable n

/-- No form that is derived from the start has a stray terminal. -/
theorem IsStray.not_reaches (h : g.IsStray x) : ¬ g.Reaches (.terminal x) := by
  rintro ⟨r, hr, hreach, hx⟩
  exact h.not_isReachable r hr hx hreach

/-- The end of input is not stray. -/
theorem IsStray.ne_endOfInput (h : g.IsStray x) (wf : g.WellFormed) : x ≠ .endOfInput := by
  obtain ⟨r, hr, hx⟩ := h.occurs
  exact (wf.hasSymbol_right r hr _ hx).1

/-- **A stray terminal follows what nonterminals that are not reachable put in front of it.** -/
theorem IsStray.follows_iff (h : g.IsStray x) (wf : g.WellFormed) :
    g.Follows n x ↔ g.FollowsUnreached n x := by
  constructor
  · intro hfollows
    unfold Follows at hfollows
    rw [if_neg (h.ne_endOfInput wf)] at hfollows
    obtain ⟨m, -, -, before, after, hderives⟩ := hfollows
    refine ⟨m, fun hreach => h.not_reaches ?_, before, after, hderives⟩
    exact hreach.reaches_of_derives hderives _ (by simp)
  · rintro ⟨m, -, before, after, hderives⟩
    exact (FollowSets.has_ofGrammar_iff wf).mp (FollowSets.has_of_derives wf hderives)

/-- When the rules are separated, nothing is put behind reachable nonterminals. -/
theorem FollowsUnreached.not_isReachable (h : g.FollowsUnreached n x) (hsep : g.IsSeparated) :
    ¬ g.IsReachable n := by
  obtain ⟨m, hm, before, after, hderives⟩ := h
  have hforms : ∀ y ∈ before ++ .nonterminal n :: .terminal x :: after,
      ∀ k, y = .nonterminal k → ¬ g.IsReachable k := by
    refine hderives.forall_mem ?_ fun y hy k hk => ?_
    · rintro _ _ (⟨r, hr, rfl, rfl⟩ | ⟨-, rfl⟩) hleft y hy k rfl
      · exact hsep r hr (hleft _ rfl) k hy
      · cases hy
    · obtain rfl : k = m := Symbol.nonterminal.inj (hk.symm.trans (List.mem_singleton.mp hy))
      exact hm
  exact hforms (.nonterminal n) (by simp) n rfl

end Grammar

/-! ## States -/

/-- The rule of an item starts the derivations or has a reachable head. -/
def Item.HasReachedHead (g : Grammar) (a : Item) : Prop :=
  ∀ r, g.rule? a.rule = some r → a.rule ≠ 0 → g.IsReachable r.left

namespace ItemSet

variable {g : Grammar} {s : ItemSet}

/-- An item whose rule has a reachable head expects a symbol that is reached. -/
theorem reaches_of_next? (wf : g.WellFormed) {a : Item} (ha : a.HasReachedHead g) {y : Symbol}
    (hnext : a.next? g = some y) : g.Reaches y := by
  obtain ⟨r, hr, hget⟩ := Item.next?_eq_some.mp hnext
  have hy := List.mem_of_getElem? hget
  by_cases hzero : a.rule = 0
  · rw [hzero, wf.rule?_zero] at hr
    obtain rfl := Option.some.inj hr
    obtain rfl : y = .nonterminal g.start := by simpa using hy
    exact .start
  · exact (ha r hr hzero).reaches (wf.mem_inputRules hzero hr) hy

/-- Closing a set of items with reachable heads adds only items with reachable heads. -/
theorem hasReachedHead_of_mem_closure (wf : g.WellFormed) (hs : ∀ a ∈ s, a.HasReachedHead g) :
    ∀ a ∈ s.closure g, a.HasReachedHead g := by
  refine closure_induction wf hs fun a n rule ha hnext hrule r hr _ => ?_
  obtain ⟨r', huses, rfl⟩ := Grammar.mem_rulesOf_iff_usesRule.mp hrule
  obtain rfl := Option.some.inj (hr.symm.trans huses.1)
  exact reaches_of_next? wf ha hnext

/-- **The rules in item sets that are reached have reachable heads.** -/
theorem IsReached.hasReachedHead (wf : g.WellFormed) (h : s.IsReached g) :
    ∀ a ∈ s, a.HasReachedHead g := by
  induction h with
  | start =>
    refine hasReachedHead_of_mem_closure wf fun a ha r _ hzero => ?_
    rw [List.mem_singleton.mp (mem_ofList.mp ha)] at hzero
    exact absurd rfl hzero
  | goto _ _ ih =>
    refine hasReachedHead_of_mem_closure wf fun a ha => ?_
    obtain ⟨b, hb, -, rfl⟩ := mem_kernel.mp ha
    exact ih b hb

end ItemSet

namespace Automaton

variable {g : Grammar} {i : Nat}

/-- **The items of the states have reachable heads.** -/
theorem hasReachedHead_of_hasItem (wf : g.WellFormed) {a : Item}
    (h : (ofGrammar g).HasItem i a) : a.HasReachedHead g := by
  obtain ⟨s, hs, ha⟩ := h
  exact ((isReached_iff wf).mpr ⟨i, s, hs, rfl⟩).hasReachedHead wf a ha

/-- Transitions are on symbols that are reached. -/
theorem reaches_of_mem_transitions (wf : g.WellFormed) {e : Transition}
    (he : e ∈ (ofGrammar g).transitions) : g.Reaches e.symbol := by
  obtain ⟨s, hs, hedge⟩ := mem_transitions.mp he
  have hexpected : e.symbol ∈ s.items.expected g := by
    rw [← edges_keys wf hs]
    exact List.mem_map_of_mem (f := (·.1)) hedge
  obtain ⟨a, ha, hnext⟩ := ItemSet.mem_expected.mp hexpected
  exact ItemSet.reaches_of_next? wf (hasReachedHead_of_hasItem wf ⟨s, hs, ha⟩) hnext

end Automaton

/-! ## Columns -/

/-- The last of increasing numbers is the greatest one. -/
theorem getLast?_eq_some_iff_isGreatest {l : List Nat} (h : l.Pairwise (· < ·)) {k : Nat} :
    l.getLast? = some k ↔ IsGreatest {j | j ∈ l} k := by
  induction l using List.reverseRecOn with
  | nil => simp [IsGreatest]
  | append_singleton l a _ =>
    obtain ⟨-, -, hlt⟩ := List.pairwise_append.mp h
    have hgreatest : IsGreatest {j | j ∈ l ++ [a]} a := by
      refine ⟨List.mem_append_right _ (List.mem_singleton_self a), fun j hj => ?_⟩
      rcases List.mem_append.mp hj with hj | hj
      · exact Nat.le_of_lt (hlt j hj a (List.mem_singleton_self a))
      · exact Nat.le_of_eq (List.mem_singleton.mp hj)
    rw [List.getLast?_concat, Option.some.injEq]
    exact ⟨fun hk => hk ▸ hgreatest, fun hk => hgreatest.unique hk⟩

namespace Tables

variable {t : Tables} {i : Nat} {x : Terminal}

/-- What can be reduced is the number of a rule. -/
theorem CanReduce.lt_size {k : Nat} (h : t.CanReduce i x k) : k < t.grammar.rules.size := by
  obtain ⟨-, r, hr, -⟩ := h
  exact (Array.getElem?_eq_some_iff.mp hr).1

/-- Where a terminal is not shifted, and is not the end of the input, there are only reductions. -/
theorem contenders_eq_reductions (hx : x ≠ .endOfInput)
    (hshift : ∀ j, ⟨i, j, .terminal x⟩ ∉ t.automaton.transitions) :
    t.contenders i x =
      ((List.range t.grammar.rules.size).filter fun k => t.CanReduce i x k).map .reduce := by
  have hnone : t.automaton.transitions.filter
      (fun e => e.source = i ∧ e.symbol = .terminal x) = [] := by
    refine List.filter_eq_nil_iff.mpr ?_
    rintro ⟨source, j, symbol⟩ he heq
    obtain ⟨rfl, rfl⟩ := of_decide_eq_true heq
    exact hshift j he
  unfold contenders
  rw [hnone, if_neg fun h => hx h.1]
  rfl

/-- So nothing competes where nothing can be reduced. -/
theorem contenders_eq_nil_iff (hx : x ≠ .endOfInput)
    (hshift : ∀ j, ⟨i, j, .terminal x⟩ ∉ t.automaton.transitions) :
    t.contenders i x = [] ↔ ∀ k, ¬ t.CanReduce i x k := by
  rw [contenders_eq_reductions hx hshift, List.map_eq_nil_iff, List.filter_eq_nil_iff]
  simp only [List.mem_range, decide_eq_true_eq]
  exact ⟨fun h k hk => h k hk.lt_size hk, fun h k _ => h k⟩

/-- The last of the rules that can be reduced is the one that is. -/
theorem getLast?_contenders_eq_some_iff (hx : x ≠ .endOfInput)
    (hshift : ∀ j, ⟨i, j, .terminal x⟩ ∉ t.automaton.transitions) {a : Action} :
    (t.contenders i x).getLast? = some a ↔
      ∃ k, a = .reduce k ∧ IsGreatest {k | t.CanReduce i x k} k := by
  have hmem : {k | k ∈ (List.range t.grammar.rules.size).filter fun k => t.CanReduce i x k} =
      {k | t.CanReduce i x k} := by
    ext k
    simp only [Set.mem_ofPred_eq, List.mem_filter, List.mem_range, decide_eq_true_eq,
      and_iff_right_iff_imp]
    exact CanReduce.lt_size
  rw [contenders_eq_reductions hx hshift, List.getLast?_map, Option.map_eq_some_iff]
  simp only [getLast?_eq_some_iff_isGreatest (List.pairwise_lt_range.filter _), hmem]
  exact exists_congr fun k => by rw [and_comm, eq_comm]

/-- A rule that was read has its complete item in a state, and a nonterminal that is not reachable derives
a form with a terminal directly behind the head. -/
def CanReduceUnreached (t : Tables) (i : Nat) (x : Terminal) (k : Nat) : Prop :=
  k ≠ 0 ∧ ∃ r, t.grammar.rule? k = some r ∧ t.automaton.HasItem i ⟨k, r.right.size⟩ ∧
    t.grammar.FollowsUnreached r.left x

/-- What the action column of a stray terminal holds. -/
structure StrayColumn (t : Tables) (x : Terminal) : Prop where
  /-- reductions only, by the last rule behind whose head something that is not reachable puts it -/
  action : ∀ i a, t.table.action? i x = some a ↔
    ∃ k, a = .reduce k ∧ IsGreatest {k | t.CanReduceUnreached i x k} k
  /-- a cell is empty where there is no such rule -/
  empty : ∀ i, t.table.action? i x = none ↔ ∀ k, ¬ t.CanReduceUnreached i x k
  /-- the whole column is empty when the rules are separated -/
  separated : t.grammar.IsSeparated → ∀ i, t.table.action? i x = none

/-- **On a stray terminal nothing is shifted or accepted,** and what is reduced is told by the forms that
nonterminals derive which are not reachable. -/
theorem strayColumn {defs : List RuleDef} (h : ofRules defs = .ok t) (hx : t.grammar.IsStray x) :
    t.StrayColumn x := by
  obtain ⟨g, hg, rfl⟩ := ofRules_eq_ok.mp h
  have wf := Grammar.wellFormed_of_augment hg
  have hshift (i j : Nat) : ⟨i, j, .terminal x⟩ ∉ (ofGrammar g).automaton.transitions :=
    fun he => hx.not_reaches (Automaton.reaches_of_mem_transitions wf he)
  have hreduce (i k : Nat) : (ofGrammar g).CanReduce i x k ↔ (ofGrammar g).CanReduceUnreached i x k := by
    refine and_congr_right fun _ => exists_congr fun r => and_congr_right fun _ =>
      and_congr_right fun _ => ?_
    exact (FollowSets.has_ofGrammar_iff wf).trans (hx.follows_iff wf)
  have hempty (i : Nat) : (ofGrammar g).table.action? i x = none ↔
      ∀ k, ¬ (ofGrammar g).CanReduceUnreached i x k := by
    rw [action?_eq_getLast? wf, List.getLast?_eq_none_iff,
      contenders_eq_nil_iff (hx.ne_endOfInput wf) (hshift i)]
    simp only [hreduce]
  constructor
  case action =>
    intro i a
    rw [action?_eq_getLast? wf, getLast?_contenders_eq_some_iff (hx.ne_endOfInput wf) (hshift i)]
    simp only [hreduce]
  case empty => exact hempty
  case separated =>
    intro hsep i
    refine (hempty i).mpr ?_
    rintro k ⟨hzero, r, hr, hitem, hfollows⟩
    -- the complete item is in a state, so that the head of its rule is reachable
    exact hfollows.not_isReachable hsep (Automaton.hasReachedHead_of_hasItem wf hitem r hr hzero)

end Tables

/-! ## Rule lists -/

/-- A nonterminal that is not reached and leads to itself only. -/
def separatedRules : List RuleDef := [⟨"S", ["a", "S"]⟩, ⟨"S", ["a"]⟩, ⟨"U", ["b", "U"]⟩, ⟨"U", ["c"]⟩]

/-- A nonterminal that is not reached puts a terminal behind the start symbol. -/
def trailingRules : List RuleDef := [⟨"S", []⟩, ⟨"U", ["S", "b"]⟩]

/-- The rules by number. -/
theorem ofDefs_trailingRules : Grammar.ofDefs trailingRules =
    .ofNames ["$", "b"] ["", "S", "U"] (by decide) (by decide)
      [⟨⟨1⟩, #[]⟩, ⟨⟨2⟩, #[.nonterminal ⟨1⟩, .terminal ⟨1⟩]⟩] := by rfl

namespace Tables

/-- A terminal whose column is empty. -/
theorem strayColumn_separatedRules : ∃ t, ofRules separatedRules = .ok t ∧
    t.grammar.IsStray ⟨2⟩ ∧ t.StrayColumn ⟨2⟩ ∧ ∀ i, t.table.action? i ⟨2⟩ = none := by
  obtain ⟨t, ht, hsame, -⟩ := exists_of_valid separatedRules (by decide)
    (by unfold RuleDef.IsValid; decide) (by decide) (by decide)
  have hrules : t.grammar.inputRules = [⟨⟨1⟩, #[.terminal ⟨1⟩, .nonterminal ⟨1⟩]⟩,
      ⟨⟨1⟩, #[.terminal ⟨1⟩]⟩, ⟨⟨2⟩, #[.terminal ⟨2⟩, .nonterminal ⟨2⟩]⟩,
      ⟨⟨2⟩, #[.terminal ⟨3⟩]⟩] := hsame.inputRules
  have hstart : t.grammar.start = ⟨1⟩ := hsame.start
  have hreach (n : Nonterminal) : t.grammar.IsReachable n ↔ n = ⟨1⟩ := by
    rw [Grammar.isReachable_iff_eq_start (by simp [hrules, hstart]), hstart]
  have hstray : t.grammar.IsStray ⟨2⟩ := ⟨by simp [hrules], by simp [hrules, hreach]⟩
  have hseparated : t.grammar.IsSeparated := by simp [Grammar.IsSeparated, hrules, hreach]
  have hcolumn := strayColumn ht hstray
  exact ⟨t, ht, hstray, hcolumn, hcolumn.separated hseparated⟩

/-- **The column of a stray terminal need not be empty.** -/
theorem exists_reduce_on_stray : ∃ t, ofRules trailingRules = .ok t ∧
    t.grammar.IsStray ⟨1⟩ ∧ t.table.action? 0 ⟨1⟩ = some (.reduce 1) := by
  obtain ⟨t, ht, hsame, -, htable, -⟩ := exists_of_valid trailingRules (by decide)
    (by unfold RuleDef.IsValid; decide) (by decide) (by decide)
  have hcell : (listed (.ofDefs trailingRules)).table.action? 0 ⟨1⟩ = some (.reduce 1) := by
    rw [ofDefs_trailingRules]
    cbv
  have hrules : t.grammar.inputRules = [⟨⟨1⟩, #[]⟩, ⟨⟨2⟩, #[.nonterminal ⟨1⟩, .terminal ⟨1⟩]⟩] :=
    hsame.inputRules
  have hstart : t.grammar.start = ⟨1⟩ := hsame.start
  have hreach (n : Nonterminal) : t.grammar.IsReachable n ↔ n = ⟨1⟩ := by
    rw [Grammar.isReachable_iff_eq_start (by simp [hrules, hstart]), hstart]
  have hstray : t.grammar.IsStray ⟨1⟩ := ⟨by simp [hrules], by simp [hrules, hreach]⟩
  exact ⟨t, ht, hstray, htable ▸ hcell⟩

end Tables

end ShiftReduce
