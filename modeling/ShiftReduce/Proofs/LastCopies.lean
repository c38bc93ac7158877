import ShiftReduce.Proofs.ConflictHistory
import ShiftReduce.Proofs.IsomorphicAutomata
import ShiftReduce.Proofs.Lossless

/-! # Copies of a rule

A rule may be written any number of times, with other rules in between. When rules are read one after the
other, it is enough to know the last copy so far of each: a further one supersedes just that one
(`CopyLog.read`). What is recorded in this way (`CopyLog.isLogOf_ofNumbered`) are the numbers with a later
copy, so that of each rule the last copy is left (`Grammar.isSuperseded_iff`). Only last copies are in the
rules of a nonterminal, in items and in the actions of a table (`Tables.usesLastCopies`). -/

namespace ShiftReduce

/-! ## Recording copies -/

/-- What is known about copies while rules are read. -/
structure CopyLog where
  /-- for each rule the number of its last copy so far -/
  latest : OrderedMap Rule Nat := {}
  /-- the numbers with a later copy, in the order in which these came -/
  superseded : List Nat := []

namespace CopyLog

/-- Reads one more rule under a number. It supersedes the last copy so far, if there is one. -/
def read (log : CopyLog) (r : Rule) (number : Nat) : CopyLog where
  latest := log.latest.insert r number
  superseded := log.superseded ++ (log.latest.get? r).toList

/-- Reads rules with their numbers. -/
def ofNumbered (rules : List (Rule × Nat)) : CopyLog :=
  rules.foldl (fun log e => log.read e.1 e.2) {}

/-- The copies among the rules of a grammar that were read, which are numbered from `1` on. -/
def ofGrammar (g : Grammar) : CopyLog := ofNumbered (g.inputRules.zipIdx 1)

/-- A log tells which numbers have later copies among some numbered rules, and which are the last. -/
structure IsLogOf (log : CopyLog) (rules : List (Rule × Nat)) : Prop where
  /-- the last copy of a rule has the greatest number -/
  latest : ∀ r k, log.latest.get? r = some k ↔ IsGreatest {j | (r, j) ∈ rules} k
  /-- a number is superseded when its rule has a greater one, too -/
  superseded : ∀ k, k ∈ log.superseded ↔ ∃ r, (r, k) ∈ rules ∧ ∃ l > k, (r, l) ∈ rules

/-- Without a copy the last one is looked for in vain. -/
theorem IsLogOf.not_mem {log : CopyLog} {rules : List (Rule × Nat)} (h : log.IsLogOf rules) {r : Rule}
    (hnone : log.latest.get? r = none) (k : Nat) : (r, k) ∉ rules := by
  intro hmem
  -- a finite set that has a member has a greatest one
  have hfinite : {j | (r, j) ∈ rules}.Finite :=
    (rules.map (·.2)).finite_toSet.subset fun j hj => List.mem_map_of_mem (f := (·.2)) hj
  obtain ⟨m, hm, hgreatest⟩ := hfinite.exists_le_maximal hmem
  have hlatest : log.latest.get? r = some m := (h.latest r m).mpr ⟨hgreatest.1, fun j hj =>
    (Nat.le_total j m).elim id fun hle => hgreatest.2 hj hle⟩
  rw [hnone] at hlatest
  cases hlatest

/-- **One more rule under a greater number** is recorded as the last copy, and the one before it as
superseded. -/
theorem IsLogOf.read {log : CopyLog} {rules : List (Rule × Nat)} (h : log.IsLogOf rules) {r : Rule}
    {number : Nat} (hlt : ∀ e ∈ rules, e.2 < number) :
    (log.read r number).IsLogOf (rules ++ [(r, number)]) where
  latest r' k := by
    show (log.latest.insert r number).get? r' = some k ↔ _
    rw [OrderedMap.get?_insert]
    by_cases hr : r' = r
    · rw [if_pos hr, Option.some.injEq]
      subst hr
      have hgreatest : IsGreatest {j | (r', j) ∈ rules ++ [(r', number)]} number := by
        refine ⟨List.mem_append_right _ (List.mem_singleton.mpr rfl), fun j hj => ?_⟩
        rcases List.mem_append.mp hj with hj | hj
        · exact Nat.le_of_lt (hlt _ hj)
        · exact Nat.le_of_eq (Prod.mk.inj (List.mem_singleton.mp hj)).2
      exact ⟨fun heq => heq ▸ hgreatest, fun hk => hgreatest.unique hk⟩
    · rw [if_neg hr, h.latest]
      have hsame : {j | (r', j) ∈ rules ++ [(r, number)]} = {j | (r', j) ∈ rules} := by
        ext j
        simp [hr]
      rw [hsame]
  superseded k := by
    show k ∈ log.superseded ++ (log.latest.get? r).toList ↔ _
    rw [List.mem_append, h.superseded, Option.mem_toList]
    simp only [List.mem_append, List.mem_singleton, Prod.mk.injEq]
    constructor
    · rintro (⟨r', hk, l, hl, hcopy⟩ | hlatest)
      · exact ⟨r', Or.inl hk, l, hl, Or.inl hcopy⟩
      · have hk := ((h.latest r k).mp hlatest).1
        exact ⟨r, Or.inl hk, number, hlt _ hk, Or.inr ⟨rfl, rfl⟩⟩
    · rintro ⟨r', hk, l, hl, hcopy⟩
      -- the new number is the greatest, so that it is not superseded
      have hnew : l ≤ number := by
        rcases hcopy with hcopy | ⟨-, rfl⟩
        · exact Nat.le_of_lt (hlt _ hcopy)
        · exact Nat.le_refl _
      replace hk := hk.resolve_right fun heq => absurd (heq.2 ▸ hl) (Nat.not_lt.mpr hnew)
      rcases hcopy with hcopy | ⟨rfl, rfl⟩
      · exact Or.inl ⟨r', hk, l, hl, hcopy⟩
      · -- a number of the new rule is that of the last copy before, or of one before that
        cases hlatest : log.latest.get? r' with
        | none => exact absurd hk (h.not_mem hlatest k)
        | some m =>
          have hm := (h.latest r' m).mp hlatest
          rcases Nat.lt_or_eq_of_le (hm.2 hk) with hlt | rfl
          · exact Or.inl ⟨r', hk, m, hlt, hm.1⟩
          · exact Or.inr rfl

/-- **Reading rules one after the other records which of them have later copies.** -/
theorem isLogOf_ofNumbered {rules : List (Rule × Nat)} (h : rules.Pairwise fun e e' => e.2 < e'.2) :
    (ofNumbered rules).IsLogOf rules := by
  induction rules using List.reverseRecOn with
  | nil => exact ⟨fun r k => by simp [ofNumbered, OrderedMap.get?, OrderedMap.lookup, IsGreatest],
      fun k => by simp [ofNumbered]⟩
  | append_singleton rules e ih =>
    obtain ⟨hrules, -, hlt⟩ := List.pairwise_append.mp h
    have hlog := (ih hrules).read (r := e.1) fun e' he' => hlt e' he' e (List.mem_singleton.mpr rfl)
    have hfold : ofNumbered (rules ++ [e]) = (ofNumbered rules).read e.1 e.2 := List.foldl_concat ..
    rwa [hfold]

end CopyLog

/-! ## Superseded numbers -/

/-- Every place is marked or not. -/
theorem length_occursLater {α : Type} [BEq α] [Hashable α] [LawfulBEq α] (l : List α) :
    (occursLater l).length = l.length := by
  induction l with
  | nil => rfl
  | cons a l ih => rw [occursLater_cons, List.length_cons, ih, List.length_cons]

namespace Grammar

variable {g : Grammar} {defs : List RuleDef}

/-- The number that is used is the greatest one of the rule. -/
theorem usesRule_iff_isGreatest {k : Nat} {r : Rule} :
    g.UsesRule k r ↔ IsGreatest {j | g.rule? j = some r} k :=
  usesRule_iff

/-- **A number is superseded when a later rule is the same.** -/
theorem isSuperseded_iff {k : Nat} {r : Rule} (hr : g.rule? k = some r) :
    g.isSuperseded k = true ↔ ∃ l > k, g.rule? l = some r := by
  have huses : g.isSuperseded k = false ↔ ∀ l, g.rule? l = some r → l ≤ k :=
    ⟨fun h => (usesRule_iff.mp ⟨hr, h⟩).2, fun h => (usesRule_iff.mpr ⟨hr, h⟩).2⟩
  rw [← Bool.not_eq_false, huses]
  push Not
  exact exists_congr fun l => and_comm

/-- A number with a later copy is that of a rule. -/
theorem exists_rule?_of_isSuperseded {k : Nat} (h : g.isSuperseded k = true) :
    ∃ r, g.rule? k = some r := by
  rw [isSuperseded, g.superseded_eq, Array.getD_eq_getD_getElem?, List.getElem?_toArray] at h
  have hlt : k < (occursLater g.rules.toList).length := by
    by_contra hge
    rw [List.getElem?_eq_none (Nat.not_lt.mp hge)] at h
    cases h
  rw [length_occursLater] at hlt
  exact ⟨_, (g.rule?_eq_toList k).trans (List.getElem?_eq_getElem hlt)⟩

/-- The rules that were read are numbered from `1` on. -/
theorem mem_zipIdx_inputRules (wf : g.WellFormed) {r : Rule} {k : Nat} :
    (r, k) ∈ g.inputRules.zipIdx 1 ↔ k ≠ 0 ∧ g.rule? k = some r := by
  rw [g.rule?_eq_toList, wf.startRule, List.mem_zipIdx_iff_le_and_getElem?_sub]
  cases k with
  | zero => simp
  | succ k => simp

/-- **What is recorded while rules are read are the superseded numbers.** -/
theorem isSuperseded_iff_mem_copyLog (wf : g.WellFormed) {k : Nat} :
    g.isSuperseded k = true ↔ k ∈ (CopyLog.ofGrammar g).superseded := by
  have hlog : (CopyLog.ofGrammar g).IsLogOf (g.inputRules.zipIdx 1) := by
    refine CopyLog.isLogOf_ofNumbered (List.pairwise_map.mp ?_)
    rw [List.zipIdx_map_snd]
    exact List.pairwise_lt_range'
  rw [hlog.superseded]
  simp only [mem_zipIdx_inputRules wf]
  constructor
  · intro h
    obtain ⟨r, hr⟩ := exists_rule?_of_isSuperseded h
    obtain ⟨l, hl, hcopy⟩ := (isSuperseded_iff hr).mp h
    refine ⟨r, ⟨?_, hr⟩, l, hl, Nat.ne_of_gt (Nat.zero_lt_of_lt hl), hcopy⟩
    rintro rfl
    rw [wf.isSuperseded_zero] at h
    cases h
  · rintro ⟨r, ⟨-, hr⟩, l, hl, -, hcopy⟩
    exact (isSuperseded_iff hr).mpr ⟨l, hl, hcopy⟩

/-- The number of a written rule is one more than its place in the list. -/
theorem IsAugmentation.rule?_succ (h : g.IsAugmentation defs) (k : Nat) : g.rule? (k + 1) =
    defs[k]?.map (ruleOf (terminalNames defs) (nonterminalNames defs)) := by
  rw [g.rule?_eq_toList, h.rules, augmentedRules, List.getElem?_cons_succ, List.getElem?_map]

/-- Rules that are written differently are different rules. -/
theorem IsAugmentation.rule?_succ_eq_iff (h : g.IsAugmentation defs) {k l : Nat} {d : RuleDef}
    (hd : defs[k]? = some d) : g.rule? (l + 1) = g.rule? (k + 1) ↔ defs[l]? = some d := by
  rw [h.rule?_succ, h.rule?_succ, hd, Option.map_some, Option.map_eq_some_iff]
  constructor
  · rintro ⟨d', hd', heq⟩
    -- names in the place of numbers give the written rules back
    have hwritten := (h.spells_ruleOf (List.mem_of_getElem? hd')).written_eq
    rw [heq, (h.spells_ruleOf (List.mem_of_getElem? hd)).written_eq] at hwritten
    rw [hd', hwritten]
  · exact fun hl => ⟨d, hl, rfl⟩

/-- A rule list supersedes what it repeats further on. -/
theorem IsAugmentation.isSuperseded_succ_iff (h : g.IsAugmentation defs) {k : Nat} {d : RuleDef}
    (hd : defs[k]? = some d) : g.isSuperseded (k + 1) = true ↔ ∃ l > k, defs[l]? = some d := by
  have hr := h.rule?_succ k
  rw [hd, Option.map_some] at hr
  rw [isSuperseded_iff hr]
  constructor
  · rintro ⟨l, hl, hcopy⟩
    obtain ⟨l, rfl⟩ := Nat.exists_eq_succ_of_ne_zero (Nat.ne_of_gt (Nat.zero_lt_of_lt hl))
    exact ⟨l, Nat.lt_of_succ_lt_succ hl, (h.rule?_succ_eq_iff hd).mp (hcopy.trans hr.symm)⟩
  · rintro ⟨l, hl, hcopy⟩
    exact ⟨l + 1, Nat.succ_lt_succ hl, ((h.rule?_succ_eq_iff hd).mpr hcopy).trans hr⟩

/-- The rules of a nonterminal are the last copies of its rules. -/
theorem mem_rulesOf_iff_isGreatest {n : Nonterminal} {k : Nat} :
    k ∈ g.rulesOf n ↔ ∃ body, IsGreatest {j | g.rule? j = some ⟨n, body⟩} k := by
  rw [mem_rulesOf_iff_usesRule]
  constructor
  · rintro ⟨⟨_, body⟩, huses, rfl⟩
    exact ⟨body, usesRule_iff_isGreatest.mp huses⟩
  · rintro ⟨body, hgreatest⟩
    exact ⟨⟨n, body⟩, usesRule_iff_isGreatest.mpr hgreatest, rfl⟩

/-- Each body of a nonterminal is in its rules once. -/
theorem existsUnique_mem_rulesOf {n : Nonterminal} {body : Array Symbol} {j : Nat}
    (h : g.rule? j = some ⟨n, body⟩) :
    ∃! k, k ∈ g.rulesOf n ∧ g.rule? k = some ⟨n, body⟩ := by
  obtain ⟨k, hk⟩ := exists_usesRule (mem_rules_of_rule? h)
  refine ⟨k, ⟨mem_rulesOf_iff_usesRule.mpr ⟨_, hk, rfl⟩, hk.1⟩, ?_⟩
  rintro l ⟨hl, hr⟩
  obtain ⟨r, huses, -⟩ := mem_rulesOf_iff_usesRule.mp hl
  obtain rfl := Option.some.inj (hr.symm.trans huses.1)
  exact huses.unique hk

end Grammar

/-! ## Last copies in tables -/

namespace Tables

/-- Of each rule only the last copy is in use. -/
structure UsesLastCopies (t : Tables) (defs : List RuleDef) : Prop where
  /-- a rule is superseded when a later one is the same -/
  superseded : ∀ k r, t.grammar.rule? k = some r →
    (t.grammar.isSuperseded k = true ↔ ∃ l > k, t.grammar.rule? l = some r)
  /-- that is, when it is written once more further on -/
  written : ∀ k d, defs[k]? = some d →
    (t.grammar.isSuperseded (k + 1) = true ↔ ∃ l > k, defs[l]? = some d)
  /-- these are the numbers that are recorded while rules are read one after the other -/
  recorded : ∀ k, t.grammar.isSuperseded k = true ↔ k ∈ (CopyLog.ofGrammar t.grammar).superseded
  /-- the rules of a nonterminal are in order -/
  pairwise_rulesOf : ∀ n, (t.grammar.rulesOf n).Pairwise (· < ·)
  /-- they are the last copies -/
  mem_rulesOf : ∀ n k, k ∈ t.grammar.rulesOf n ↔
    ∃ body, IsGreatest {j | t.grammar.rule? j = some ⟨n, body⟩} k
  /-- with each body once -/
  existsUnique_mem_rulesOf : ∀ n body j, t.grammar.rule? j = some ⟨n, body⟩ →
    ∃! k, k ∈ t.grammar.rulesOf n ∧ t.grammar.rule? k = some ⟨n, body⟩
  /-- no state has two items of the same rule with the same marker -/
  items : ∀ i s, t.automaton.state? i = some s → ∀ a ∈ s.items, ∃ r,
    t.grammar.rule? a.rule = some r ∧
      ∀ b ∈ s.items, t.grammar.rule? b.rule = some r → b.marker = a.marker → b = a
  /-- a cell reduces the last copy of a rule that was read -/
  action : ∀ i x k, t.table.action? i x = some (.reduce k) →
    1 ≤ k ∧ ∃ r, IsGreatest {j | t.grammar.rule? j = some r} k
  /-- and so do both actions of a conflict -/
  conflicts : ∀ c ∈ t.table.conflicts, ∀ k, c.previous = .reduce k ∨ c.current = .reduce k →
    1 ≤ k ∧ ∃ r, IsGreatest {j | t.grammar.rule? j = some r} k

variable {g : Grammar}

/-- A state offers to reduce the last copies of rules that were read. -/
theorem isGreatest_of_mem_candidates (wf : g.WellFormed) {follow : FollowSets} {i k : Nat} {s : State}
    (hs : (Automaton.ofGrammar g).state? i = some s) {x : Terminal}
    (hmem : (x, .reduce k) ∈ s.candidates g follow) :
    1 ≤ k ∧ ∃ r, IsGreatest {j | g.rule? j = some r} k := by
  obtain ⟨r, huses⟩ := Automaton.exists_usesRule_of_reduce wf hs hmem
  obtain ⟨hzero, -⟩ := (mem_candidates_reduce wf hs).mp hmem
  exact ⟨Nat.one_le_iff_ne_zero.mpr hzero, r, Grammar.usesRule_iff_isGreatest.mp huses⟩

/-- The items of a state have the last copies of rules. -/
theorem exists_usesRule_of_mem_items (wf : g.WellFormed) {i : Nat} {s : State}
    (hs : (Automaton.ofGrammar g).state? i = some s) {a : Item} (ha : a ∈ s.items) :
    ∃ r, g.UsesRule a.rule r := by
  obtain ⟨hlater, r, hr, -⟩ := Automaton.mem_allItems.mp
    (Automaton.mem_allItems_of_mem_itemSets wf _ (Automaton.mem_itemSets_of_state? wf hs).1 a ha)
  exact ⟨r, hr, hlater⟩

/-- **A rule that is repeated acts as one rule under the number of its last copy.** -/
theorem usesLastCopies {defs : List RuleDef} {t : Tables} (h : ofRules defs = .ok t) :
    t.UsesLastCopies defs := by
  obtain ⟨g, hg, rfl⟩ := ofRules_eq_ok.mp h
  have haug := Grammar.isAugmentation_of_augment hg
  have wf := haug.wellFormed
  constructor
  case superseded => exact fun k r hr => Grammar.isSuperseded_iff hr
  case written => exact fun k d hd => haug.isSuperseded_succ_iff hd
  case recorded => exact fun k => Grammar.isSuperseded_iff_mem_copyLog wf
  case pairwise_rulesOf => exact fun n => List.pairwise_lt_range.filter _
  case mem_rulesOf => exact fun n k => Grammar.mem_rulesOf_iff_isGreatest
  case existsUnique_mem_rulesOf => exact fun n body j hr => Grammar.existsUnique_mem_rulesOf hr
  case items =>
    intro i s hs a ha
    obtain ⟨r, huses⟩ := exists_usesRule_of_mem_items wf hs ha
    refine ⟨r, huses.1, fun b hb hr hmarker => ?_⟩
    obtain ⟨r', huses'⟩ := exists_usesRule_of_mem_items wf hs hb
    obtain rfl := Option.some.inj (hr.symm.trans huses'.1)
    exact Item.ext_iff.mpr ⟨huses'.unique huses, hmarker⟩
  case action =>
    intro i x k haction
    obtain ⟨s, hs, hmem⟩ := ParseTable.mem_candidates_of_action? haction
    exact isGreatest_of_mem_candidates wf hs hmem
  case conflicts =>
    intro c hc k hk
    obtain ⟨s, hs, hmem⟩ := ParseTable.mem_conflicts.mp hc
    obtain ⟨-, hprevious, hcurrent⟩ := mem_writeActions_snd hmem
    rcases hk with hk | hk
    · rcases hprevious with hcell | hprevious
      · cases hcell
      · exact isGreatest_of_mem_candidates wf hs (hk ▸ hprevious)
    · exact isGreatest_of_mem_candidates wf hs (hk ▸ hcurrent)

/-- Three copies of a rule with other rules in between, and two of another one. -/
def copiedRules : List RuleDef :=
  [⟨"S", ["a", "S"]⟩, ⟨"S", []⟩, ⟨"S", ["a", "S"]⟩, ⟨"A", ["a", "S"]⟩, ⟨"S", []⟩, ⟨"S", ["a", "S"]⟩]

/-- The first two copies are superseded, and so is the first one of the other rule. -/
theorem usesLastCopies_copiedRules : ∃ t, ofRules copiedRules = .ok t ∧
    t.UsesLastCopies copiedRules ∧ t.grammar.isSuperseded 1 = true ∧
    t.grammar.isSuperseded 2 = true ∧ t.grammar.isSuperseded 3 = true ∧
    t.grammar.isSuperseded 4 = false ∧ t.grammar.isSuperseded 5 = false ∧
    t.grammar.isSuperseded 6 = false := by
  obtain ⟨g, hg⟩ : ∃ g, Grammar.augment copiedRules = .ok g :=
    Grammar.exists_augment (by decide) (by unfold RuleDef.IsValid; decide) (by decide) (by decide)
  have ht := ofRules_eq_ok.mpr ⟨g, hg, rfl⟩
  have hcopies := usesLastCopies ht
  have hlast (k : Nat) (d : RuleDef) (hd : copiedRules[k]? = some d)
      (hnone : d ∉ copiedRules.drop (k + 1)) : g.isSuperseded (k + 1) = false := by
    rw [← Bool.not_eq_true]
    intro hlater
    obtain ⟨l, hl, hcopy⟩ := (hcopies.written k d hd).mp hlater
    refine hnone (List.mem_of_getElem? (i := l - (k + 1)) ?_)
    rw [List.getElem?_drop, Nat.add_sub_cancel' hl]
    exact hcopy
  exact ⟨.ofGrammar g, ht, hcopies, (hcopies.written 0 _ rfl).mpr ⟨2, by decide, rfl⟩,
    (hcopies.written 1 _ rfl).mpr ⟨4, by decide, rfl⟩, (hcopies.written 2 _ rfl).mpr ⟨5, by decide, rfl⟩,
    hlast 3 _ rfl (by decide), hlast 4 _ rfl (by decide), hlast 5 _ rfl (by decide)⟩

end Tables

end ShiftReduce
