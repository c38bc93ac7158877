import ShiftReduce.Proofs.CheckedNumbers
import ShiftReduce.Proofs.Evaluation

/-! # Which rule lists are rejected, and why

A rule list is accepted exactly when its rules are without faults and there is room for its terminals
and rules (`Grammar.exists_augment_iff`). Otherwise the reason that is given is a function of the list
alone (`Rejects`): faults of single rules come before all shortage of room, and of the two kinds of
shortage the one that is met first, rule by rule (`Grammar.augment_eq_error_iff`). -/

namespace ShiftReduce

/-! ## What the reason depends on -/

/-- The different terminals in the bodies of a rule list. -/
def distinctTerminals (defs : List RuleDef) : Finset String :=
  {s ∈ (defs.flatMap (·.body)).toFinset | ¬ IsCapital s}

/-- A rule list is without faults, and there is room for it. -/
structure IsAcceptable (defs : List RuleDef) : Prop where
  /-- there is a rule -/
  nonempty : defs ≠ []
  /-- no rule has a fault -/
  faultless : ∀ r ∈ defs, r.IsFaultless
  /-- there are not too many terminals -/
  terminals : (distinctTerminals defs).card ≤ 65535
  /-- there are not too many rules -/
  rules : defs.length ≤ 65535

/-- The places of rules that end a part of the list with too many terminals. -/
def crowdedPlaces (defs : List RuleDef) : Set Nat :=
  {k | k < defs.length ∧ 65535 < (distinctTerminals (defs.take (k + 1))).card}

/-- Why a rule list is rejected. -/
inductive Rejects (defs : List RuleDef) : GrammarError → Prop
  /-- there are no rules -/
  | noRules (empty : defs = []) : Rejects defs .noRules
  /-- a rule has a fault, and those before it have none -/
  | fault {before after : List RuleDef} {d : RuleDef} {e : GrammarError}
      (place : defs = before ++ d :: after) (faultless : ∀ r ∈ before, r.IsFaultless)
      (fault : d.FirstFault before.length e) : Rejects defs e
  /-- the terminals run out of numbers, and the rules have not run out before -/
  | terminals {k : Nat} (faultless : ∀ r ∈ defs, r.IsFaultless)
      (first : IsLeast (crowdedPlaces defs) k) (room : k ≤ 65535) :
      Rejects defs (.tooMany .terminals)
  /-- something runs out of numbers, and it is not the terminals that do so first -/
  | rules (faultless : ∀ r ∈ defs, r.IsFaultless)
      (full : 65535 < (distinctTerminals defs).card ∨ 65535 < defs.length)
      (late : ∀ k, IsLeast (crowdedPlaces defs) k → 65535 < k) : Rejects defs (.tooMany .rules)

/-! ## Running out of numbers -/

/-- The least number of a set without `0` is one more than the least of the numbers before. -/
theorem isLeast_succ_iff {s t : Set Nat} (hzero : 0 ∉ s) (hsucc : ∀ k, k + 1 ∈ s ↔ k ∈ t) {k : Nat} :
    IsLeast s (k + 1) ↔ IsLeast t k := by
  constructor
  · rintro ⟨hk, hleast⟩
    exact ⟨(hsucc k).mp hk, fun j hj => Nat.le_of_succ_le_succ (hleast ((hsucc j).mpr hj))⟩
  · rintro ⟨hk, hleast⟩
    refine ⟨(hsucc k).mpr hk, fun j hj => ?_⟩
    cases j with
    | zero => exact absurd hj hzero
    | succ j => exact Nat.succ_le_succ (hleast ((hsucc j).mp hj))

namespace Draft

/-- The places of rules that end a part of the list with too many terminals, when some were met
before. -/
def crowdedPlaces (before : List String) (defs : List RuleDef) : Set Nat :=
  {k | k < defs.length ∧ capacity + 1 <
    (before ++ (defs.take (k + 1)).flatMap fun r => r.body.filter isTerminalName).eraseDups.length}

variable {before : List String} {r : RuleDef} {rest : List RuleDef}

/-- The first rule is too much when its terminals do not fit with those met before. -/
theorem zero_mem_crowdedPlaces : 0 ∈ crowdedPlaces before (r :: rest) ↔
    capacity + 1 < (before ++ r.body.filter isTerminalName).eraseDups.length := by
  simp [crowdedPlaces]

/-- A later rule is too much when it is with the first one's terminals met before. -/
theorem succ_mem_crowdedPlaces (k : Nat) : k + 1 ∈ crowdedPlaces before (r :: rest) ↔
    k ∈ crowdedPlaces (before ++ r.body.filter isTerminalName) rest := by
  simp [crowdedPlaces]

/-- **Terminals run out at the first place that is crowded, if the rules last that long.** -/
theorem addRules_eq_terminals_iff {d : Draft} {defs : List RuleDef}
    (hT : d.terminals.toList = before.eraseDups) (room : d.terminals.size ≤ capacity + 1)
    (hrules : d.rules.size ≤ capacity + 1) (hheads : ∀ r ∈ defs, r.head ∈ d.nonterminals.toList) :
    d.addRules defs = .error (.tooMany .terminals) ↔
      ∃ k, IsLeast (crowdedPlaces before defs) k ∧ d.rules.size + k ≤ capacity + 1 := by
  induction defs generalizing d before with
  | nil => simp [addRules, crowdedPlaces, IsLeast]
  | cons r rest ih =>
    obtain ⟨hhead, hrest⟩ := List.forall_mem_cons.mp hheads
    have hbody := terminals_internAll hT r.body
    -- the first place is crowded just when there is no room for the terminals of its body
    have hzero : 0 ∈ crowdedPlaces before (r :: rest) ↔
        ¬ (d.internAll r.body).terminals.size ≤ capacity + 1 := by
      rw [zero_mem_crowdedPlaces, ← hbody, Numbering.length_toList, Nat.not_le]
    rw [addRules, addRule_eq room hhead]
    by_cases hfits : (d.internAll r.body).terminals.size ≤ capacity + 1
    · have hno : 0 ∉ crowdedPlaces before (r :: rest) := fun h => hzero.mp h hfits
      rw [if_pos hfits]
      by_cases hroom : d.rules.size ≤ capacity
      · -- the rule is read, and the places are counted from the next one
        have hnext := ih (d := { d.internAll r.body with
          rules := d.rules.push ((d.internAll r.body).ruleOf r) }) hbody hfits (by simpa using hroom)
          fun r' hr' => (nonterminals_prefix_internAll d r.body).subset (hrest r' hr')
        rw [if_pos hroom]
        refine hnext.trans ?_
        simp only [Array.size_push]
        constructor
        · rintro ⟨k, hk, hle⟩
          exact ⟨k + 1, (isLeast_succ_iff hno succ_mem_crowdedPlaces).mpr hk, by omega⟩
        · rintro ⟨k, hk, hle⟩
          cases k with
          | zero => exact absurd hk.1 hno
          | succ k => exact ⟨k, (isLeast_succ_iff hno succ_mem_crowdedPlaces).mp hk, by omega⟩
      · -- there is no number for this rule
        rw [if_neg hroom]
        refine iff_of_false (by simp) ?_
        rintro ⟨k, hk, hle⟩
        obtain rfl : k = 0 := by omega
        exact hno hk.1
    · rw [if_neg hfits]
      exact iff_of_true rfl ⟨0, ⟨hzero.mpr hfits, fun _ _ => Nat.zero_le _⟩, hrules⟩

/-- Only terminals and rules can run out. -/
theorem eq_of_addRules_eq_error {d : Draft} {defs : List RuleDef} {e : GrammarError}
    (room : d.terminals.size ≤ capacity + 1) (hheads : ∀ r ∈ defs, r.head ∈ d.nonterminals.toList)
    (h : d.addRules defs = .error e) : e = .tooMany .terminals ∨ e = .tooMany .rules := by
  induction defs generalizing d with
  | nil => cases h
  | cons r rest ih =>
    obtain ⟨hhead, hrest⟩ := List.forall_mem_cons.mp hheads
    rw [addRules, addRule_eq room hhead] at h
    by_cases hfits : (d.internAll r.body).terminals.size ≤ capacity + 1
    · by_cases hroom : d.rules.size ≤ capacity
      · rw [if_pos hfits, if_pos hroom] at h
        refine ih ?_ ?_ h
        · exact hfits
        · exact fun r' hr' => (nonterminals_prefix_internAll d r.body).subset (hrest r' hr')
      · rw [if_pos hfits, if_neg hroom] at h
        cases h
        exact .inr rfl
    · rw [if_neg hfits] at h
      cases h
      exact .inl rfl

end Draft

/-! ## Rule lists without faults -/

section Faultless

variable {defs : List RuleDef}

/-- There are as many terminals as names in the list of those that are written. -/
theorem card_distinctTerminals (defs : List RuleDef) :
    (distinctTerminals defs).card = (writtenTerminals defs).length := by
  have hsame : distinctTerminals defs = (writtenTerminals defs).toFinset := by
    ext s
    simp [distinctTerminals, writtenTerminals, isTerminalName, ← isNonterminalName_iff,
      ← exists_and_right, and_assoc]
  have hnodup : (writtenTerminals defs).Nodup := nodup_eraseDups _
  rw [hsame, List.toFinset_card_of_nodup hnodup]

/-- Besides the terminals in bodies only the end of the input has a number. -/
theorem length_terminalNames (faultless : ∀ r ∈ defs, r.IsFaultless) :
    (terminalNames defs).length = (distinctTerminals defs).card + 1 := by
  rw [terminalNames_eq fun r hr => RuleDef.isValid_iff.mpr (faultless r hr), List.length_cons,
    card_distinctTerminals]

/-- The terminals are counted with the end of input as one met before. -/
theorem crowdedPlaces_eq (faultless : ∀ r ∈ defs, r.IsFaultless) :
    Draft.crowdedPlaces [endMark] defs = crowdedPlaces defs := by
  ext k
  have hlength := length_terminalNames fun r (hr : r ∈ defs.take (k + 1)) =>
    faultless r (List.mem_of_mem_take hr)
  have hiff : capacity + 1 < (terminalNames (defs.take (k + 1))).length ↔
      65535 < (distinctTerminals (defs.take (k + 1))).card := by
    rw [hlength, Nat.add_lt_add_iff_right]
    rfl
  exact and_congr_right fun _ => hiff

/-- **A rule list is accepted exactly when it is without faults and there is room for it.** -/
theorem Grammar.exists_augment_iff : (∃ g, Grammar.augment defs = .ok g) ↔ IsAcceptable defs := by
  constructor
  · rintro ⟨g, hg⟩
    have haug := isAugmentation_of_augment hg
    have faultless := fun r hr => RuleDef.isValid_iff.mp (haug.valid r hr)
    obtain ⟨hterminals, hrules⟩ := length_le_of_augment hg
    rw [length_terminalNames faultless] at hterminals
    exact ⟨haug.nonempty, faultless, Nat.le_of_succ_le_succ hterminals, hrules⟩
  · intro h
    have hterminals : (terminalNames defs).length ≤ capacity + 1 := by
      rw [length_terminalNames h.faultless]
      exact Nat.succ_le_succ h.terminals
    exact exists_augment h.nonempty (fun r hr => RuleDef.isValid_iff.mpr (h.faultless r hr))
      hterminals h.rules

variable (nonempty : defs ≠ []) (faultless : ∀ r ∈ defs, r.IsFaultless)

include nonempty faultless

/-- Without faults a list is rejected when reading its rules is. -/
theorem Grammar.augment_eq_error_iff_addRules {e : GrammarError} :
    Grammar.augment defs = .error e ↔ (initialDraft defs).addRules defs = .error e := by
  rw [augment_eq nonempty fun r hr => RuleDef.isValid_iff.mpr (faultless r hr)]
  cases (initialDraft defs).addRules defs <;> simp [Except.map]

/-- Without faults it is the terminals or the rules that run out. -/
theorem Grammar.eq_of_augment_eq_error {e : GrammarError} (h : Grammar.augment defs = .error e) :
    e = .tooMany .terminals ∨ e = .tooMany .rules :=
  Draft.eq_of_addRules_eq_error (size_terminals_initialDraft defs) (fun _ => head_mem_initialDraft)
    ((augment_eq_error_iff_addRules nonempty faultless).mp h)

/-- **Terminals run out at the first crowded place.** -/
theorem Grammar.augment_eq_terminals_iff : Grammar.augment defs = .error (.tooMany .terminals) ↔
    ∃ k, IsLeast (crowdedPlaces defs) k ∧ k ≤ 65535 := by
  have hone : (initialDraft defs).rules.size = 1 := rfl
  have hterminals : (initialDraft defs).terminals.toList = [endMark].eraseDups :=
    Draft.terminals_ofHeads ..
  rw [augment_eq_error_iff_addRules nonempty faultless,
    Draft.addRules_eq_terminals_iff hterminals (size_terminals_initialDraft defs)
      (by rw [hone]; exact Nat.succ_le_succ (Nat.zero_le _)) fun _ => head_mem_initialDraft,
    crowdedPlaces_eq faultless, hone]
  refine exists_congr fun k => and_congr_right fun _ => ?_
  rw [Nat.add_comm, Nat.add_le_add_iff_right]
  rfl

/-- **Rules run out when there is too much, and the terminals do not run out first.** -/
theorem Grammar.augment_eq_rules_iff : Grammar.augment defs = .error (.tooMany .rules) ↔
    (65535 < (distinctTerminals defs).card ∨ 65535 < defs.length) ∧
      ∀ k, IsLeast (crowdedPlaces defs) k → 65535 < k := by
  have hfull : (65535 < (distinctTerminals defs).card ∨ 65535 < defs.length) ↔
      ¬ ∃ g, Grammar.augment defs = .ok g := by
    rw [exists_augment_iff]
    constructor
    · rintro (hmany | hmany) h
      · exact absurd h.terminals (Nat.not_le.mpr hmany)
      · exact absurd h.rules (Nat.not_le.mpr hmany)
    · intro h
      by_contra hfits
      rw [not_or, Nat.not_lt, Nat.not_lt] at hfits
      exact h ⟨nonempty, faultless, hfits.1, hfits.2⟩
  have hlate : (∀ k, IsLeast (crowdedPlaces defs) k → 65535 < k) ↔
      Grammar.augment defs ≠ .error (.tooMany .terminals) := by
    rw [Ne, augment_eq_terminals_iff nonempty faultless]
    push Not
    rfl
  rw [hfull, hlate]
  cases haugment : Grammar.augment defs with
  | ok g => simp
  | error e => rcases eq_of_augment_eq_error nonempty faultless haugment with rfl | rfl <;> simp

end Faultless

/-! ## The reason of a rejection -/

/-- A list with a fault is rejected for the first one. -/
theorem Grammar.augment_eq_of_fault {defs : List RuleDef} {e : GrammarError}
    (h : firstFault? 0 defs = some e) : Grammar.augment defs = .error e := by
  cases defs with
  | nil => cases h
  | cons first rest => simp [augment, h]

/-- **A rule list is rejected for the reason that it gives.** -/
theorem Grammar.augment_eq_error_iff {defs : List RuleDef} {e : GrammarError} :
    Grammar.augment defs = .error e ↔ Rejects defs e := by
  constructor
  · intro h
    by_cases hnil : defs = []
    · subst hnil
      cases h
      exact .noRules rfl
    cases hfault : firstFault? 0 defs with
    | some e' =>
      rw [augment_eq_of_fault hfault] at h
      cases h
      obtain ⟨before, d, after, place, faultless, fault⟩ := firstFault?_eq_some.mp hfault
      rw [Nat.zero_add] at fault
      exact .fault place faultless fault
    | none =>
      have faultless : ∀ r ∈ defs, r.IsFaultless := fun r hr =>
        RuleDef.isValid_iff.mp (firstFault?_eq_none.mp hfault r hr)
      rcases eq_of_augment_eq_error hnil faultless h with rfl | rfl
      · obtain ⟨k, first, room⟩ := (augment_eq_terminals_iff hnil faultless).mp h
        exact .terminals faultless first room
      · obtain ⟨full, late⟩ := (augment_eq_rules_iff hnil faultless).mp h
        exact .rules faultless full late
  · rintro (rfl | ⟨place, faultless, fault⟩ | ⟨faultless, first, room⟩ | ⟨faultless, full, late⟩)
    · rfl
    · refine augment_eq_of_fault (firstFault?_eq_some.mpr ⟨_, _, _, place, faultless, ?_⟩)
      rwa [Nat.zero_add]
    · have nonempty : defs ≠ [] := by
        rintro rfl
        exact absurd first.1.1 (Nat.not_lt_zero _)
      exact (augment_eq_terminals_iff nonempty faultless).mpr ⟨_, first, room⟩
    · have nonempty : defs ≠ [] := by
        rintro rfl
        simp [distinctTerminals] at full
      exact (augment_eq_rules_iff nonempty faultless).mpr ⟨full, late⟩

/-- **Exactly the lists that are in order are accepted, all others are rejected for the first reason, and
nonterminals never run out of numbers.** -/
theorem Grammar.reports_first_fault (defs : List RuleDef) :
    ((∃ g, Grammar.augment defs = .ok g) ↔ IsAcceptable defs) ∧
    (∀ e, Grammar.augment defs = .error e ↔ Rejects defs e) ∧
    Grammar.checkedAugment defs = (Grammar.augment defs).mapError .rejected ∧
    Grammar.checkedAugment defs ≠ .error .nonterminals :=
  ⟨exists_augment_iff, fun _ => augment_eq_error_iff, checkedAugment_eq defs,
    checkedAugment_ne_nonterminals defs⟩

end ShiftReduce
