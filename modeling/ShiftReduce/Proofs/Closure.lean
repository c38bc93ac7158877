import ShiftReduce.Closure
import ShiftReduce.Proofs.FirstSets
import Mathlib.Logic.Relation

/-! # Members of closures and of goto sets

The left corners of a set are what is reached from it by rules whose bodies begin with a nonterminal
(`Grammar.mem_leftCorners`). So a closure adds the initial items of just these nonterminals
(`ItemSet.mem_closure`), and two facts about it carry everything else: it is closed under expectation
(`ItemSet.initial_mem_closure`), and each item that it adds is expected by another of its items
(`ItemSet.expected_of_mem_closure`). -/

namespace ShiftReduce

/-! ## Rules by number -/

/-- The last copy of an element does not occur later. -/
theorem exists_not_occursLater {α : Type} [BEq α] [Hashable α] [LawfulBEq α] {l : List α} {a : α}
    (h : a ∈ l) : ∃ i : Nat, l[i]? = some a ∧ (occursLater l)[i]? = some false := by
  induction l with
  | nil => exact absurd h List.not_mem_nil
  | cons b l ih =>
    rw [occursLater_cons]
    -- a later copy is the one to take, and without one this is the last
    by_cases hl : a ∈ l
    · obtain ⟨i, hi, hlater⟩ := ih hl
      exact ⟨i + 1, hi, hlater⟩
    · obtain rfl : a = b := (List.mem_cons.mp h).resolve_right hl
      exact ⟨0, rfl, by simp [hl]⟩

/-- The last copy of an element is the one that does not occur later. -/
theorem getElem?_occursLater {α : Type} [BEq α] [Hashable α] [LawfulBEq α] {l : List α} {a : α}
    {i : Nat} (h : l[i]? = some a) :
    (occursLater l)[i]?.getD false = false ↔ ∀ j : Nat, l[j]? = some a → j ≤ i := by
  induction l generalizing i with
  | nil => simp at h
  | cons b l ih =>
    rw [occursLater_cons]
    cases i with
    | zero =>
      obtain rfl : b = a := by simpa using h
      constructor
      · intro hlater j hj
        cases j with
        | zero => exact Nat.le_refl 0
        | succ j =>
          have hmem : b ∈ l := List.mem_of_getElem? hj
          simp [hmem] at hlater
      · intro hlast
        have hnot : b ∉ l := by
          intro hmem
          obtain ⟨j, hj⟩ := List.mem_iff_getElem?.mp hmem
          exact absurd (hlast (j + 1) hj) (Nat.not_succ_le_zero j)
        simp [hnot]
    | succ i =>
      rw [List.getElem?_cons_succ, ih h]
      constructor
      · intro hlast j hj
        cases j with
        | zero => exact Nat.zero_le _
        | succ j => exact Nat.succ_le_succ (hlast j hj)
      · exact fun hlast j hj => Nat.le_of_succ_le_succ (hlast (j + 1) hj)

namespace Grammar

/-- The number of a rule is its place in the list. -/
theorem rule?_eq_toList (g : Grammar) (i : Nat) : g.rule? i = g.rules.toList[i]? :=
  Array.getElem?_toList.symm

/-- What has a number is a rule. -/
theorem mem_rules_of_rule? {g : Grammar} {i : Nat} {r : Rule} (h : g.rule? i = some r) :
    r ∈ g.rules.toList :=
  List.mem_of_getElem? (g.rule?_eq_toList i ▸ h)

/-- A rule without a later copy has a number: this is the one that items have. -/
def UsesRule (g : Grammar) (k : Nat) (r : Rule) : Prop :=
  g.rule? k = some r ∧ g.isSuperseded k = false

/-- The number that is used is that of the last copy. -/
theorem usesRule_iff {g : Grammar} {k : Nat} {r : Rule} :
    g.UsesRule k r ↔ g.rule? k = some r ∧ ∀ j, g.rule? j = some r → j ≤ k := by
  refine and_congr_right fun hr => ?_
  rw [g.rule?_eq_toList] at hr
  simp only [g.rule?_eq_toList]
  rw [← getElem?_occursLater hr, isSuperseded, g.superseded_eq, Array.getD_eq_getD_getElem?,
    List.getElem?_toArray]

/-- A rule has one number that items can have. -/
theorem UsesRule.unique {g : Grammar} {k l : Nat} {r : Rule} (hk : g.UsesRule k r)
    (hl : g.UsesRule l r) : k = l :=
  Nat.le_antisymm ((usesRule_iff.mp hl).2 k hk.1) ((usesRule_iff.mp hk).2 l hl.1)

/-- The numbers of the rules of a nonterminal are those of its rules without a later copy. -/
theorem mem_rulesOf {g : Grammar} {n : Nonterminal} {i : Nat} :
    i ∈ g.rulesOf n ↔ ∃ r, g.rule? i = some r ∧ r.left = n ∧ g.isSuperseded i = false := by
  unfold rulesOf
  rw [List.mem_filter, List.mem_range]
  constructor
  · rintro ⟨hi, hrule⟩
    rw [Bool.and_eq_true, Option.any_eq_true] at hrule
    obtain ⟨⟨r, hr, hleft⟩, hlater⟩ := hrule
    exact ⟨r, hr, of_decide_eq_true hleft, by simpa using hlater⟩
  · rintro ⟨r, hr, hleft, hlater⟩
    refine ⟨(Array.getElem?_eq_some_iff.mp hr).1, ?_⟩
    rw [hr, hlater]
    simpa using hleft

/-- The rules of a nonterminal are those with it as their head, without the copies that a later
one replaces. -/
theorem mem_rulesOf_iff_usesRule {g : Grammar} {n : Nonterminal} {i : Nat} :
    i ∈ g.rulesOf n ↔ ∃ r, g.UsesRule i r ∧ r.left = n := by
  rw [mem_rulesOf]
  exact exists_congr fun r => ⟨fun ⟨hr, hleft, hlater⟩ => ⟨⟨hr, hlater⟩, hleft⟩,
    fun ⟨⟨hr, hlater⟩, hleft⟩ => ⟨hr, hleft, hlater⟩⟩

/-- **Every rule has a copy that is used in items.** -/
theorem exists_mem_rulesOf {g : Grammar} {r : Rule} (h : r ∈ g.rules.toList) :
    ∃ i ∈ g.rulesOf r.left, g.rule? i = some r := by
  obtain ⟨i, hi, hlater⟩ := exists_not_occursLater h
  have hrule : g.rule? i = some r := (g.rule?_eq_toList i).trans hi
  have hnot : g.isSuperseded i = false := by
    unfold isSuperseded
    rw [g.superseded_eq, Array.getD_eq_getD_getElem?, List.getElem?_toArray, hlater]
    rfl
  exact ⟨i, mem_rulesOf.mpr ⟨r, hrule, rfl, hnot⟩, hrule⟩

/-- Every rule has a number that items can have: that of its last copy. -/
theorem exists_usesRule {g : Grammar} {r : Rule} (h : r ∈ g.rules.toList) :
    ∃ k, g.UsesRule k r := by
  obtain ⟨k, hk, hr⟩ := exists_mem_rulesOf h
  obtain ⟨-, -, -, hlater⟩ := mem_rulesOf.mp hk
  exact ⟨k, hr, hlater⟩

namespace WellFormed

variable {g : Grammar}

/-- Rule 0 leads from the fresh start to the start symbol. -/
theorem rule?_zero (wf : g.WellFormed) :
    g.rule? 0 = some ⟨.freshStart, #[.nonterminal g.start]⟩ := by
  rw [g.rule?_eq_toList, wf.startRule]
  rfl

/-- The rules with other numbers were read. -/
theorem mem_inputRules (wf : g.WellFormed) {i : Nat} (hi : i ≠ 0) {r : Rule}
    (hr : g.rule? i = some r) : r ∈ g.inputRules := by
  rw [g.rule?_eq_toList, wf.startRule] at hr
  obtain ⟨k, rfl⟩ := Nat.exists_eq_succ_of_ne_zero hi
  exact List.mem_of_getElem? hr

/-- Every rule but the one that starts the derivations was read. -/
theorem eq_or_mem_inputRules (wf : g.WellFormed) {r : Rule} (hr : r ∈ g.rules.toList) :
    r = ⟨.freshStart, #[.nonterminal g.start]⟩ ∨ r ∈ g.inputRules := by
  rw [wf.startRule] at hr
  exact List.mem_cons.mp hr

/-- Only rule `0` replaces the fresh start symbol. -/
theorem eq_zero_of_left (wf : g.WellFormed) {i : Nat} {r : Rule} (hr : g.rule? i = some r)
    (hleft : r.left = .freshStart) : i = 0 := by
  by_contra hi
  exact (wf.hasSymbol_left r (wf.mem_inputRules hi hr)).1 hleft

/-- Rule `0` has no later copy. -/
theorem isSuperseded_zero (wf : g.WellFormed) : g.isSuperseded 0 = false := by
  have hmem : (⟨.freshStart, #[.nonterminal g.start]⟩ : Rule) ∈ g.rules.toList := by
    rw [wf.startRule]
    exact List.mem_cons_self ..
  -- some copy of the rule has no later one, and rule `0` is the only copy
  obtain ⟨i, hi, hrule⟩ := exists_mem_rulesOf hmem
  obtain ⟨-, -, -, hlater⟩ := mem_rulesOf.mp hi
  rwa [wf.eq_zero_of_left hrule rfl] at hlater

/-- Rule 0 has no later copy. -/
theorem usesRule_zero (wf : g.WellFormed) :
    g.UsesRule 0 ⟨.freshStart, #[.nonterminal g.start]⟩ :=
  ⟨wf.rule?_zero, wf.isSuperseded_zero⟩

/-- Symbols in bodies, also in that of rule `0`, are in the grammar. -/
theorem hasSymbol_of_mem (wf : g.WellFormed) {r : Rule} (hr : r ∈ g.rules.toList) {x : Symbol}
    (hx : x ∈ r.right.toList) : g.HasSymbol x := by
  rcases wf.eq_or_mem_inputRules hr with rfl | hr
  · rw [List.mem_singleton.mp hx]
    exact wf.hasSymbol_start
  · exact wf.hasSymbol_right r hr x hx

end WellFormed

/-! ## Left corners -/

/-- A rule for `m` has a body that begins with `n`. -/
def Corner (g : Grammar) (m n : Nonterminal) : Prop :=
  ∃ r ∈ g.rules.toList, r.left = m ∧ r.leftCorner? = some n

/-- Adds the left corner of one rule. -/
def addLeftCorner (s : SymbolSet Nonterminal) (r : Rule) : SymbolSet Nonterminal :=
  match r.leftCorner? with
  | some n => if r.left ∈ s then s.insert n else s
  | none => s

/-- A pass adds the left corners of the rules, one rule after the other. -/
theorem addLeftCorners_eq (g : Grammar) (s : SymbolSet Nonterminal) :
    g.addLeftCorners s = g.rules.toList.foldl addLeftCorner s :=
  (Array.foldl_toList ..).symm

/-- A rule adds its left corner when its head is already there. -/
theorem mem_addLeftCorner {s : SymbolSet Nonterminal} {r : Rule} {n : Nonterminal} :
    n ∈ addLeftCorner s r ↔ n ∈ s ∨ r.left ∈ s ∧ r.leftCorner? = some n := by
  unfold addLeftCorner
  cases r.leftCorner? with
  | none => simp
  | some m =>
    by_cases hleft : r.left ∈ s
    · simp [hleft, or_comm, eq_comm]
    · simp [hleft]

/-- The left corner of a rule is a nonterminal that its body begins with. -/
theorem leftCorner?_eq_some {r : Rule} {n : Nonterminal} :
    r.leftCorner? = some n ↔ r.right[0]? = some (.nonterminal n) := by
  unfold Rule.leftCorner?
  rw [Option.bind_eq_some_iff]
  constructor
  · rintro ⟨x, hx, hn⟩
    rw [hx, Symbol.nonterminal?_eq_some.mp hn]
  · exact fun h => ⟨_, h, rfl⟩

/-- A rule leaves fewer nonterminals to add, unless it adds none. -/
theorem shrinks_addLeftCorner {g : Grammar} (wf : g.WellFormed) {r : Rule}
    (hr : r ∈ g.rules.toList) :
    Shrinks (fun _ => True) (SymbolSet.missing g.allNonterminals) (addLeftCorner · r) where
  keep _ _ := trivial
  shrink s _ hne := by
    -- a change means that the left corner is new
    have hnew : ∃ n, r.leftCorner? = some n ∧ r.left ∈ s ∧ n ∉ s := by
      by_contra hnone
      refine hne (SymbolSet.ext fun n => ?_)
      rw [mem_addLeftCorner]
      constructor
      · rintro (hn | ⟨hleft, hcorner⟩)
        · exact hn
        · by_contra hn
          exact hnone ⟨n, hcorner, hleft, hn⟩
      · exact Or.inl
    obtain ⟨n, hcorner, hleft, hn⟩ := hnew
    have hbody : Symbol.nonterminal n ∈ r.right.toList := by
      rw [leftCorner?_eq_some, ← Array.getElem?_toList] at hcorner
      exact List.mem_of_getElem? hcorner
    exact SymbolSet.missing_lt (fun a ha => mem_addLeftCorner.mpr (Or.inl ha))
      (mem_allNonterminals.mpr (wf.hasSymbol_of_mem hr hbody).2) hn
      (mem_addLeftCorner.mpr (Or.inr ⟨hleft, hcorner⟩))

/-- A pass leaves fewer nonterminals to add, unless it adds none. -/
theorem shrinks_addLeftCorners {g : Grammar} (wf : g.WellFormed) :
    Shrinks (fun _ => True) (SymbolSet.missing g.allNonterminals) g.addLeftCorners := by
  rw [show g.addLeftCorners = fun s => g.rules.toList.foldl addLeftCorner s from
    funext g.addLeftCorners_eq]
  exact Shrinks.foldl fun _ hr => shrinks_addLeftCorner wf hr

/-- The left corners of a set hold the left corner of each rule of a member. -/
theorem leftCorners_closed {g : Grammar} (wf : g.WellFormed) {s : SymbolSet Nonterminal}
    {m n : Nonterminal} (hm : m ∈ g.leftCorners s) (hcorner : g.Corner m n) :
    n ∈ g.leftCorners s := by
  obtain ⟨r, hr, rfl, hn⟩ := hcorner
  have hroom : s.missing g.allNonterminals < g.nonterminals.size + 1 := by
    refine Nat.lt_succ_of_le (Nat.le_trans (SymbolSet.missing_le_length _ s) ?_)
    simp [allNonterminals]
  have hfix : g.addLeftCorners (g.leftCorners s) = g.leftCorners s :=
    (shrinks_addLeftCorners wf).saturate_fixed trivial hroom
  rw [addLeftCorners_eq] at hfix
  -- when a round changes nothing, none of its rules does
  have hrule := Shrinks.eq_of_foldl (fun _ hr => shrinks_addLeftCorner wf hr) trivial hfix r hr
  rw [← hrule]
  exact mem_addLeftCorner.mpr (Or.inr ⟨hm, hn⟩)

/-- What one round of left corners adds is reached by rules. -/
theorem mem_addLeftCorners {g : Grammar} {s : SymbolSet Nonterminal} {n : Nonterminal}
    (h : n ∈ g.addLeftCorners s) : ∃ m ∈ s, Relation.ReflTransGen g.Corner m n := by
  rw [addLeftCorners_eq] at h
  -- the rules of a round are taken one after the other, and each prolongs a path
  have reach (rules : List Rule) (hrules : ∀ r ∈ rules, r ∈ g.rules.toList)
      (s' : SymbolSet Nonterminal) (hs' : ∀ n ∈ s', ∃ m ∈ s, Relation.ReflTransGen g.Corner m n) :
      ∀ n ∈ rules.foldl addLeftCorner s', ∃ m ∈ s, Relation.ReflTransGen g.Corner m n := by
    induction rules generalizing s' with
    | nil => exact hs'
    | cons r rules ih =>
      refine ih (fun r' hr' => hrules r' (List.mem_cons_of_mem _ hr')) _ fun n hn => ?_
      rcases mem_addLeftCorner.mp hn with hn | ⟨hleft, hcorner⟩
      · exact hs' n hn
      · obtain ⟨m, hm, hpath⟩ := hs' _ hleft
        exact ⟨m, hm, hpath.tail ⟨r, hrules r (List.mem_cons_self ..), rfl, hcorner⟩⟩
  exact reach _ (fun _ hr => hr) s (fun n hn => ⟨n, hn, .refl⟩) n h

/-- **The left corners of a set are what is reached from it by rules.** -/
theorem mem_leftCorners {g : Grammar} (wf : g.WellFormed) {s : SymbolSet Nonterminal}
    {n : Nonterminal} :
    n ∈ g.leftCorners s ↔ ∃ m ∈ s, Relation.ReflTransGen g.Corner m n := by
  constructor
  -- what is there is reached, and this stays so from round to round
  · have hkeep : ∀ s' : SymbolSet Nonterminal,
        (∀ n ∈ s', ∃ m ∈ s, Relation.ReflTransGen g.Corner m n) →
        ∀ n ∈ g.addLeftCorners s', ∃ m ∈ s, Relation.ReflTransGen g.Corner m n := by
      intro s' hs' n hn
      obtain ⟨k, hk, hkn⟩ := mem_addLeftCorners hn
      obtain ⟨m, hm, hmk⟩ := hs' k hk
      exact ⟨m, hm, hmk.trans hkn⟩
    intro h
    exact saturate_induction (p := fun s' => ∀ n ∈ s', ∃ m ∈ s, Relation.ReflTransGen g.Corner m n)
      hkeep _ (fun n hn => ⟨n, hn, .refl⟩) n h
  · rintro ⟨m, hm, hpath⟩
    -- members stay from round to round, and paths lead on since nothing is missing
    have hself : m ∈ g.leftCorners s := by
      refine saturate_induction (p := fun s' => m ∈ s') (fun s' hs' => ?_) _ hm
      rw [addLeftCorners_eq]
      have grow (rules : List Rule) (s' : SymbolSet Nonterminal) (hs' : m ∈ s') :
          m ∈ rules.foldl addLeftCorner s' := by
        induction rules generalizing s' with
        | nil => exact hs'
        | cons r rules ih => exact ih _ (mem_addLeftCorner.mpr (Or.inl hs'))
      exact grow _ s' hs'
    induction hpath with
    | refl => exact hself
    | tail _ hcorner ih => exact leftCorners_closed wf ih hcorner

/-- The initial items of the nonterminals in a set. -/
theorem mem_initialItems {g : Grammar} {s : SymbolSet Nonterminal} {i : Item} :
    i ∈ g.initialItems s ↔ i.marker = 0 ∧ ∃ n ∈ s, i.rule ∈ g.rulesOf n := by
  rw [ItemSet.mem_def]
  unfold initialItems isRuleOf
  simp only [List.mem_map, List.mem_filter, List.mem_range, Bool.and_eq_true, Option.any_eq_true,
    mem_rulesOf]
  constructor
  · rintro ⟨rule, ⟨-, ⟨r, hr, hleft⟩, hlater⟩, rfl⟩
    exact ⟨rfl, r.left, of_decide_eq_true hleft, r, hr, rfl, by simpa using hlater⟩
  · rintro ⟨hmarker, n, hn, r, hr, rfl, hlater⟩
    refine ⟨i.rule, ⟨(Array.getElem?_eq_some_iff.mp hr).1, ⟨r, hr, decide_eq_true hn⟩, ?_⟩, ?_⟩
    · rw [hlater]
      rfl
    · exact Item.ext_iff.mpr ⟨rfl, hmarker.symm⟩

end Grammar

/-! ## Items -/

namespace Item

variable {g : Grammar}

/-- The next symbol of an item is the one at its marker in the body of its rule. -/
theorem next?_eq_some {i : Item} {x : Symbol} :
    i.next? g = some x ↔ ∃ r, g.rule? i.rule = some r ∧ r.right.toList[i.marker]? = some x := by
  unfold next?
  rw [Option.bind_eq_some_iff]
  simp only [Array.getElem?_toList]

/-- What stands behind the marker of an item whose rule is known. -/
theorem next?_eq {i : Item} {r : Rule} (hr : g.rule? i.rule = some r) :
    i.next? g = r.right.toList[i.marker]? := by
  rw [next?, hr, Option.bind_some, Array.getElem?_toList]

/-- An item is complete when its marker has passed the body of its rule. -/
theorem isComplete_iff {i : Item} :
    i.isComplete g = true ↔ ∃ r, g.rule? i.rule = some r ∧ r.right.size ≤ i.marker := by
  unfold isComplete
  rw [Option.any_eq_true]
  simp only [decide_eq_true_eq]

/-- An item whose rule is known is complete when nothing stands behind its marker. -/
theorem isComplete_eq {i : Item} {r : Rule} (hr : g.rule? i.rule = some r) :
    i.isComplete g = (i.next? g).isNone := by
  rw [Bool.eq_iff_iff, Option.isNone_iff_eq_none, isComplete_iff, next?_eq hr,
    List.getElem?_eq_none_iff, Array.length_toList]
  simp [hr]

/-- Advancing an item keeps its rule. -/
@[simp] theorem rule_advance (i : Item) : i.advance.rule = i.rule := rfl

/-- Advancing an item moves its marker by one. -/
@[simp] theorem marker_advance (i : Item) : i.advance.marker = i.marker + 1 := rfl

/-- Different items stay different when they are advanced. -/
theorem advance_inj {i j : Item} (h : i.advance = j.advance) : i = j := by
  obtain ⟨hrule, hmarker⟩ := Item.ext_iff.mp h
  exact Item.ext_iff.mpr ⟨hrule, Nat.succ.inj hmarker⟩

end Item

/-! ## Closures -/

namespace ItemSet

variable {g : Grammar}

/-- An expected nonterminal is the next symbol of one of the items. -/
theorem mem_expectedNonterminals {s : ItemSet} {n : Nonterminal} :
    n ∈ s.expectedNonterminals g ↔ ∃ i ∈ s, i.next? g = some (.nonterminal n) := by
  unfold expectedNonterminals
  rw [SymbolSet.mem_ofList, List.mem_filterMap]
  simp only [Option.bind_eq_some_iff, Symbol.nonterminal?_eq_some, exists_eq_right, mem_def]

/-- An expected symbol is the next one of one of the items. -/
theorem mem_expected {s : ItemSet} {x : Symbol} :
    x ∈ s.expected g ↔ ∃ i ∈ s, i.next? g = some x := by
  unfold expected
  rw [List.mem_eraseDups, List.mem_filterMap]
  rfl

/-- **A closure adds the initial items of the left corners of what is expected.** -/
theorem mem_closure {s : ItemSet} {i : Item} :
    i ∈ s.closure g ↔ i ∈ s ∨
      i.marker = 0 ∧ ∃ n ∈ g.leftCorners (s.expectedNonterminals g), i.rule ∈ g.rulesOf n := by
  unfold closure
  rw [mem_union, Grammar.mem_initialItems]

/-- The closure of a set contains it. -/
theorem mem_closure_of_mem {s : ItemSet} {i : Item} (h : i ∈ s) : i ∈ s.closure g :=
  mem_closure.mpr (Or.inl h)

/-- What an item of a closure expects is a left corner of what the set expects. -/
theorem mem_leftCorners_of_mem_closure (wf : g.WellFormed) {s : ItemSet} {i : Item}
    (h : i ∈ s.closure g) {n : Nonterminal} (hnext : i.next? g = some (.nonterminal n)) :
    n ∈ g.leftCorners (s.expectedNonterminals g) := by
  rcases mem_closure.mp h with h | ⟨hmarker, m, hm, hrule⟩
  · exact (Grammar.mem_leftCorners wf).mpr
      ⟨n, mem_expectedNonterminals.mpr ⟨i, h, hnext⟩, .refl⟩
  -- an initial item expects the left corner of its rule
  · obtain ⟨r, hr, rfl, -⟩ := Grammar.mem_rulesOf.mp hrule
    rw [Item.next?_eq hr, hmarker, Array.getElem?_toList] at hnext
    exact Grammar.leftCorners_closed wf hm
      ⟨r, Grammar.mem_rules_of_rule? hr, rfl, Grammar.leftCorner?_eq_some.mpr hnext⟩

/-- **A closure is closed:** with an item it has the initial items of the nonterminal behind the
marker. -/
theorem initial_mem_closure (wf : g.WellFormed) {s : ItemSet} {i : Item} (h : i ∈ s.closure g)
    {n : Nonterminal} (hnext : i.next? g = some (.nonterminal n)) {rule : Nat}
    (hrule : rule ∈ g.rulesOf n) : ⟨rule, 0⟩ ∈ s.closure g :=
  mem_closure.mpr (Or.inr ⟨rfl, n, mem_leftCorners_of_mem_closure wf h hnext, hrule⟩)

/-- **Each item that a closure adds is expected** by one of its items. -/
theorem expected_of_mem_closure (wf : g.WellFormed) {s : ItemSet} {i : Item}
    (h : i ∈ s.closure g) :
    i ∈ s ∨ i.marker = 0 ∧ ∃ n, i.rule ∈ g.rulesOf n ∧
      ∃ j ∈ s.closure g, j.next? g = some (.nonterminal n) := by
  rcases mem_closure.mp h with h | ⟨hmarker, n, hn, hrule⟩
  · exact Or.inl h
  · refine Or.inr ⟨hmarker, n, hrule, ?_⟩
    obtain ⟨m, hm, hpath⟩ := (Grammar.mem_leftCorners wf).mp hn
    -- the last step of the path is a rule, whose last copy is an item of the closure
    rcases Relation.ReflTransGen.cases_tail hpath with rfl | ⟨k, hk, r, hr, rfl, hcorner⟩
    · obtain ⟨j, hj, hnext⟩ := mem_expectedNonterminals.mp hm
      exact ⟨j, mem_closure_of_mem hj, hnext⟩
    · obtain ⟨copy, hcopy, hget⟩ := Grammar.exists_mem_rulesOf hr
      have hleft := (Grammar.mem_leftCorners wf).mpr ⟨m, hm, hk⟩
      refine ⟨⟨copy, 0⟩, mem_closure.mpr (Or.inr ⟨rfl, r.left, hleft, hcopy⟩), ?_⟩
      refine Item.next?_eq_some.mpr ⟨r, hget, ?_⟩
      rw [Array.getElem?_toList]
      exact Grammar.leftCorner?_eq_some.mp hcorner

/-- What holds of the items of a set, and of the initial items that an item expects when it holds of that
item, holds of the whole closure. -/
theorem closure_induction (wf : g.WellFormed) {s : ItemSet} {p : Item → Prop}
    (hs : ∀ i ∈ s, p i)
    (hstep : ∀ i n rule, p i → i.next? g = some (.nonterminal n) → rule ∈ g.rulesOf n → p ⟨rule, 0⟩) :
    ∀ i ∈ s.closure g, p i := by
  -- by induction on the path of left corners that leads to the head of a rule
  have hcorners : ∀ n ∈ g.leftCorners (s.expectedNonterminals g), ∀ rule ∈ g.rulesOf n,
      p ⟨rule, 0⟩ := by
    intro n hn
    obtain ⟨m, hm, hpath⟩ := (Grammar.mem_leftCorners wf).mp hn
    induction hpath with
    | refl =>
      obtain ⟨j, hj, hnext⟩ := mem_expectedNonterminals.mp hm
      exact fun rule hrule => hstep j _ rule (hs j hj) hnext hrule
    | @tail k n hk hcorner ih =>
      obtain ⟨r, hr, rfl, hleft⟩ := hcorner
      obtain ⟨copy, hcopy, hget⟩ := Grammar.exists_mem_rulesOf hr
      have hbefore := ih ((Grammar.mem_leftCorners wf).mpr ⟨m, hm, hk⟩) copy hcopy
      refine fun rule hrule => hstep _ _ rule hbefore (Item.next?_eq_some.mpr ⟨r, hget, ?_⟩) hrule
      rw [Array.getElem?_toList]
      exact Grammar.leftCorner?_eq_some.mp hleft
  rintro ⟨rule, marker⟩ hi
  rcases mem_closure.mp hi with hi | ⟨rfl, n, hn, hrule⟩
  · exact hs _ hi
  · exact hcorners n hn rule hrule

/-- A closure has items only when there is one to close. -/
theorem exists_of_mem_closure (wf : g.WellFormed) {s : ItemSet} {i : Item} (h : i ∈ s.closure g) :
    ∃ j, j ∈ s := by
  rcases mem_closure.mp h with h | ⟨-, n, hn, -⟩
  · exact ⟨i, h⟩
  · obtain ⟨m, hm, -⟩ := (Grammar.mem_leftCorners wf).mp hn
    obtain ⟨j, hj, -⟩ := mem_expectedNonterminals.mp hm
    exact ⟨j, hj⟩

/-! ## Goto sets -/

/-- The items from which a goto set is closed. -/
def kernel (g : Grammar) (s : ItemSet) (x : Symbol) : ItemSet :=
  .ofList ((s.items.filter fun i => decide (i.next? g = some x)).map Item.advance)

/-- The items behind a symbol are the closure of the advanced ones. -/
theorem goto_eq (s : ItemSet) (x : Symbol) : s.goto g x = (s.kernel g x).closure g := rfl

/-- The kernel behind a symbol has the items that expect it, advanced over it. -/
theorem mem_kernel {s : ItemSet} {x : Symbol} {i : Item} :
    i ∈ s.kernel g x ↔ ∃ j ∈ s, j.next? g = some x ∧ j.advance = i := by
  unfold kernel
  rw [mem_ofList, List.mem_map]
  simp only [List.mem_filter, decide_eq_true_eq, and_assoc]
  rfl

/-- An item that expects the symbol is in the goto set, advanced. -/
theorem advance_mem_goto {s : ItemSet} {x : Symbol} {i : Item} (h : i ∈ s)
    (hnext : i.next? g = some x) : i.advance ∈ s.goto g x :=
  mem_closure_of_mem (mem_kernel.mpr ⟨i, h, hnext, rfl⟩)

/-- An item of a goto set with something before its marker comes from one that expects the symbol. -/
theorem exists_of_mem_goto (wf : g.WellFormed) {s : ItemSet} {x : Symbol} {i : Item}
    (h : i ∈ s.goto g x) (hmarker : i.marker ≠ 0) :
    ∃ j ∈ s, j.next? g = some x ∧ j.advance = i := by
  rcases expected_of_mem_closure wf h with h | ⟨hzero, -⟩
  · exact mem_kernel.mp h
  · exact absurd hzero hmarker

/-- An item of a goto set with nothing before its marker is expected by one of its items. -/
theorem expected_of_mem_goto (wf : g.WellFormed) {s : ItemSet} {x : Symbol} {i : Item}
    (h : i ∈ s.goto g x) (hmarker : i.marker = 0) :
    ∃ n, i.rule ∈ g.rulesOf n ∧ ∃ j ∈ s.goto g x, j.next? g = some (.nonterminal n) := by
  rcases expected_of_mem_closure wf h with h | ⟨-, hexpected⟩
  · obtain ⟨j, -, -, rfl⟩ := mem_kernel.mp h
    exact absurd hmarker (Nat.succ_ne_zero _)
  · exact hexpected

/-- Just the symbols that are expected have goto sets with items. -/
theorem exists_mem_goto_iff (wf : g.WellFormed) {s : ItemSet} {x : Symbol} :
    (∃ i, i ∈ s.goto g x) ↔ x ∈ s.expected g := by
  rw [mem_expected]
  constructor
  · rintro ⟨i, hi⟩
    obtain ⟨j, hj⟩ := exists_of_mem_closure wf hi
    obtain ⟨item, hitem, hnext, -⟩ := mem_kernel.mp hj
    exact ⟨item, hitem, hnext⟩
  · rintro ⟨item, hitem, hnext⟩
    exact ⟨_, advance_mem_goto hitem hnext⟩

end ItemSet

end ShiftReduce
