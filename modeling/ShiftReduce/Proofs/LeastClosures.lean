import Mathlib.Order.Bounds.Basic
import ShiftReduce.Proofs.CheckedItems
import ShiftReduce.Proofs.Completeness

/-! # Closures are least closed sets

A set of items is expanded when it has, with an item, the initial items of all rules that may begin
behind the marker (`Grammar.IsExpanded`). The closure of a set is the least expanded set around it
(`ItemSet.isLeast_closure`), and this is all that is needed for the laws of a closure operator. A goto
set is the least expanded set around the items that expect its symbol, moved on
(`ItemSet.isLeast_goto`). Expanding a worklist finds the same sets, and an item of a foreign rule stops
it where the rule is looked up (`Checked.misses_closure`, `Checked.misses_goto`). -/

namespace ShiftReduce

/-- With an item there are the initial items of all rules of the nonterminal behind its marker, of equal
rules only that of the last copy. -/
def Grammar.IsExpanded (g : Grammar) (s : Set Item) : Prop :=
  ∀ i ∈ s, ∀ n, i.next? g = some (.nonterminal n) →
    ∀ k r, g.UsesRule k r → r.left = n → (⟨k, 0⟩ : Item) ∈ s

/-- The grammar has the rules of all items in a list. -/
def Grammar.HasRulesOf (g : Grammar) (l : List Item) : Prop :=
  ∀ i ∈ l, ∃ r, g.rule? i.rule = some r

/-! ## The laws of closures -/

namespace ItemSet

variable {g : Grammar}

/-- **The closure of a set is the least expanded set around it.** -/
theorem isLeast_closure (wf : g.WellFormed) (s : ItemSet) :
    IsLeast {t : Set Item | (∀ i ∈ s, i ∈ t) ∧ g.IsExpanded t} {i | i ∈ s.closure g} := by
  constructor
  · refine ⟨fun i => mem_closure_of_mem, ?_⟩
    rintro i hi n hnext k r hk rfl
    exact initial_mem_closure wf hi hnext (Grammar.mem_rulesOf_iff_usesRule.mpr ⟨r, hk, rfl⟩)
  · rintro t ⟨hst, ht⟩
    refine closure_induction wf hst fun i n k hi hnext hk => ?_
    obtain ⟨r, hr, hleft⟩ := Grammar.mem_rulesOf_iff_usesRule.mp hk
    exact ht i hi n hnext k r hr hleft

/-- A closure is closed under expected nonterminals. -/
theorem isExpanded_closure (wf : g.WellFormed) (s : ItemSet) :
    g.IsExpanded {i | i ∈ s.closure g} :=
  (isLeast_closure wf s).1.2

/-- An expanded set around the items of a set is around the closure. -/
theorem mem_of_mem_closure (wf : g.WellFormed) {s : ItemSet} {t : Set Item}
    (hst : ∀ i ∈ s, i ∈ t) (ht : g.IsExpanded t) {i : Item} (h : i ∈ s.closure g) : i ∈ t :=
  (isLeast_closure wf s).2 ⟨hst, ht⟩ h

/-- **Closing is monotone.** -/
theorem closure_mono (wf : g.WellFormed) {s t : ItemSet} (h : ∀ i ∈ s, i ∈ t) {i : Item}
    (hi : i ∈ s.closure g) : i ∈ t.closure g :=
  mem_of_mem_closure wf (fun j hj => mem_closure_of_mem (h j hj)) (isExpanded_closure wf t) hi

/-- **Closing twice is closing once.** -/
theorem closure_closure (wf : g.WellFormed) (s : ItemSet) :
    (s.closure g).closure g = s.closure g :=
  ext fun _ => ⟨mem_of_mem_closure wf (fun _ hj => hj) (isExpanded_closure wf s),
    mem_closure_of_mem⟩

/-- **Closing distributes over unions.** -/
theorem closure_union (wf : g.WellFormed) (s t : ItemSet) :
    (s ∪ t).closure g = s.closure g ∪ t.closure g := by
  have hexpanded : g.IsExpanded {i | i ∈ s.closure g ∪ t.closure g} := by
    intro i hi n hnext k r hk hleft
    -- an item is expanded in the closure that it comes from
    rcases mem_union.mp hi with hi | hi
    · exact mem_union.mpr (Or.inl (isExpanded_closure wf s i hi n hnext k r hk hleft))
    · exact mem_union.mpr (Or.inr (isExpanded_closure wf t i hi n hnext k r hk hleft))
  refine ext fun i => ⟨mem_of_mem_closure wf (fun j hj => ?_) hexpanded, fun hi => ?_⟩
  · exact mem_union.mpr ((mem_union.mp hj).imp mem_closure_of_mem mem_closure_of_mem)
  · rcases mem_union.mp hi with hi | hi
    · exact closure_mono wf (fun j hj => mem_union.mpr (Or.inl hj)) hi
    · exact closure_mono wf (fun j hj => mem_union.mpr (Or.inr hj)) hi

/-! ## Goto sets -/

/-- **A goto set is the least expanded set around the items that expect the symbol, moved on.** -/
theorem isLeast_goto (wf : g.WellFormed) (s : ItemSet) (x : Symbol) :
    IsLeast {t : Set Item | (∀ i ∈ s, i.next? g = some x → i.advance ∈ t) ∧ g.IsExpanded t}
      {i | i ∈ s.goto g x} := by
  -- the items that expect the symbol, moved on, are those of the kernel
  have hkernel (t : Set Item) : (∀ i ∈ s, i.next? g = some x → i.advance ∈ t) ↔
      ∀ i ∈ s.kernel g x, i ∈ t := by
    constructor
    · intro h j hj
      obtain ⟨i, hi, hnext, rfl⟩ := mem_kernel.mp hj
      exact h i hi hnext
    · exact fun h i hi hnext => h _ (mem_kernel.mpr ⟨i, hi, hnext, rfl⟩)
  simp only [hkernel, goto_eq]
  exact isLeast_closure wf (s.kernel g x)

/-- A set is empty when no item is in it. -/
theorem isEmpty_iff {s : ItemSet} : s.isEmpty = true ↔ ∀ i, i ∉ s := by
  unfold isEmpty
  rw [List.isEmpty_iff, List.eq_nil_iff_forall_not_mem]
  rfl

/-- **A goto set is empty just when no item expects the symbol.** -/
theorem isEmpty_goto_iff (wf : g.WellFormed) {s : ItemSet} {x : Symbol} :
    (s.goto g x).isEmpty = true ↔ ∀ i ∈ s, i.next? g ≠ some x := by
  rw [isEmpty_iff, ← not_exists, exists_mem_goto_iff wf, mem_expected]
  simp only [not_exists, not_and, ne_eq]

/-! ## Items of foreign rules -/

/-- The test whether all items have rules says what it should. -/
theorem hasRules_iff {s : ItemSet} : s.hasRules g = true ↔ g.HasRulesOf s.items := by
  unfold hasRules Item.hasRule Grammar.HasRulesOf Grammar.rule?
  simp [← Option.isSome_iff_exists]

/-- The set of a list has rules for its items when the list has. -/
theorem hasRulesOf_ofList {l : List Item} :
    g.HasRulesOf (ofList l).items ↔ g.HasRulesOf l :=
  forall_congr' fun _ => imp_congr_left mem_ofList

/-- There is a closure just when the grammar has the rules of all items. -/
theorem closure?_eq_some {s c : ItemSet} :
    s.closure? g = some c ↔ g.HasRulesOf s.items ∧ s.closure g = c := by
  unfold closure?
  rw [Option.ite_none_right_eq_some, hasRules_iff, Option.some.injEq]

/-- The goto function gives an item set when all items have rules, and then that one. -/
theorem goto?_eq_some {s c : ItemSet} {x : Symbol} :
    s.goto? g x = some c ↔ g.HasRulesOf s.items ∧ s.goto g x = c := by
  unfold goto?
  rw [Option.ite_none_right_eq_some, hasRules_iff, Option.some.injEq]

/-- A closure has no items of foreign rules. -/
theorem hasRulesOf_closure {s : ItemSet} (h : g.HasRulesOf s.items) :
    g.HasRulesOf (s.closure g).items := by
  intro i hi
  rcases mem_closure.mp hi with hi | ⟨-, n, -, hrule⟩
  · exact h i hi
  · obtain ⟨r, hr, -⟩ := Grammar.mem_rulesOf.mp hrule
    exact ⟨r, hr⟩

/-- A set is the set of its list. -/
theorem ofList_items (s : ItemSet) : ofList s.items = s := ext fun _ => mem_ofList

/-- The set of two lists is the union of their sets. -/
theorem ofList_append (l l' : List Item) : ofList (l ++ l') = ofList l ∪ ofList l' :=
  ext fun i => by rw [mem_union, mem_ofList, mem_ofList, mem_ofList, List.mem_append]

end ItemSet

namespace Checked

variable {g : Grammar}

/-- Looking up a rule that is not there fails. -/
theorem rule_eq_error {k : Nat} (h : g.rule? k = none) : rule g k = .error (.missingRule k) := by
  unfold rule
  rw [h]

/-- Looking behind the marker of an item of a foreign rule fails. -/
theorem next_eq_error {i : Item} (h : g.rule? i.rule = none) :
    next g i = .error (.missingRule i.rule) := by
  unfold next
  rw [rule_eq_error h]
  rfl

/-- A computation stops where the look-up of a rule fails. -/
def Misses {α : Type} (c : Checked α) : Prop := ∃ k, c = .error (.missingRule k)

/-- A worklist with an item of a foreign rule is not expanded to its end. -/
theorem misses_expand {bound : Nat} {pending found : List Item}
    (room : pending.length + missing g found < bound) (h : ∃ i ∈ pending, g.rule? i.rule = none) :
    (expand g bound pending found).Misses := by
  induction bound generalizing pending found with
  | zero => omega
  | succ bound ih =>
    obtain ⟨j, hj, hnone⟩ := h
    cases pending with
    | nil => exact absurd hj List.not_mem_nil
    | cons i pending =>
      unfold expand
      cases hi : g.rule? i.rule with
      | none =>
        rw [next_eq_error hi]
        exact ⟨i.rule, rfl⟩
      | some r =>
        -- the foreign item comes later, and what is expanded before makes the rest smaller
        have hne : j ≠ i := fun hji => by simp [← hji, hnone] at hi
        have hrest : j ∈ pending := (List.mem_cons.mp hj).resolve_left hne
        have hroom := missing_newItems (g := g) found (i.next? g)
        rw [next_eq hi, ok_bind]
        refine ih ?_ ⟨j, List.mem_append_right _ hrest, hnone⟩
        simp only [List.length_append, List.length_reverse, List.length_cons] at room ⊢
        omega

/-- The items of a list are not all moved on when one of them has a foreign rule. -/
theorem misses_advanceOver (room : g.HasRoom) (x : Symbol) {l : List Item}
    (h : ∃ i ∈ l, g.rule? i.rule = none) : (advanceOver g x l).Misses := by
  induction l with
  | nil =>
    obtain ⟨i, hi, -⟩ := h
    exact absurd hi List.not_mem_nil
  | cons i l ih =>
    obtain ⟨j, hj, hnone⟩ := h
    unfold advanceOver
    cases hi : g.rule? i.rule with
    | none =>
      rw [next_eq_error hi]
      exact ⟨i.rule, rfl⟩
    | some r =>
      have hne : j ≠ i := fun hji => by simp [← hji, hnone] at hi
      obtain ⟨k, hk⟩ := ih ⟨j, (List.mem_cons.mp hj).resolve_left hne, hnone⟩
      rw [next_eq hi, ok_bind, hk]
      by_cases hnext : i.next? g = some x
      · rw [if_pos hnext, advance_eq (Item.marker_lt_capacity room hnext)]
        exact ⟨k, rfl⟩
      · rw [if_neg hnext]
        exact ⟨k, rfl⟩

/-- A list with an item of a foreign rule is not closed. -/
theorem misses_closure {l : List Item} (h : ∃ i ∈ l, g.rule? i.rule = none) :
    (closure g l).Misses := by
  obtain ⟨i, hi, hnone⟩ := h
  have hexpand : (expand g (l.eraseDups.length + g.rules.size + 1) l.eraseDups.reverse
      l.eraseDups).Misses := by
    refine misses_expand ?_ ⟨i, List.mem_reverse.mpr (List.mem_eraseDups.mpr hi), hnone⟩
    have hmissing := missing_le_size (g := g) l.eraseDups
    rw [List.length_reverse]
    omega
  obtain ⟨k, hk⟩ := hexpand
  unfold closure
  rw [hk]
  exact ⟨k, rfl⟩

/-- From a set with an item of a foreign rule nothing goes on. -/
theorem misses_goto (room : g.HasRoom) {s : ItemSet} (h : ∃ i ∈ s, g.rule? i.rule = none)
    (x : Symbol) : (goto g s x).Misses := by
  obtain ⟨k, hk⟩ := misses_advanceOver room x h
  unfold goto
  rw [hk]
  exact ⟨k, rfl⟩

end Checked

/-! ## Closing and going on -/

/-- What closing the items of a list, and moving the items of a set over a symbol, gives. -/
structure Grammar.HasLeastClosures (g : Grammar) : Prop where
  /-- closing gives the least expanded set with the given items, in the order of items, and expanding
  a worklist gives the same -/
  closure : ∀ l, g.HasRulesOf l → ∃ c : ItemSet,
    (ItemSet.ofList l).closure? g = some c ∧ Checked.closure g l = .ok c ∧
    c.items.Pairwise (fun i j => i.rule < j.rule ∨ i.rule = j.rule ∧ i.marker < j.marker) ∧
    IsLeast {t : Set Item | (∀ i ∈ l, i ∈ t) ∧ g.IsExpanded t} {i | i ∈ c}
  /-- only the set of the given items matters -/
  congr : ∀ l l', (∀ i, i ∈ l ↔ i ∈ l') →
    (ItemSet.ofList l).closure? g = (ItemSet.ofList l').closure? g
  /-- closing twice is closing once -/
  idempotent : ∀ l c, (ItemSet.ofList l).closure? g = some c → c.closure? g = some c
  /-- with more items there is more in the closure -/
  monotone : ∀ l l' c c', (ItemSet.ofList l).closure? g = some c →
    (ItemSet.ofList l').closure? g = some c' → (∀ i ∈ l, i ∈ l') → ∀ i ∈ c, i ∈ c'
  /-- closing distributes over unions -/
  union : ∀ l l' c c', (ItemSet.ofList l).closure? g = some c →
    (ItemSet.ofList l').closure? g = some c' → (ItemSet.ofList (l ++ l')).closure? g = some (c ∪ c')
  /-- a goto set is the closure of the items that expect the symbol, with the marker moved by one; it is
  empty just when no item expects the symbol, and there is always room for the marker -/
  goto : ∀ (s : ItemSet) (x : Symbol), g.HasRulesOf s.items → ∃ c : ItemSet,
    s.goto? g x = some c ∧ Checked.goto g s x = .ok c ∧
    (∃ l, (∀ j, j ∈ l ↔ ∃ i ∈ s, i.next? g = some x ∧ j = ⟨i.rule, i.marker + 1⟩) ∧
      (ItemSet.ofList l).closure? g = some c) ∧
    (c.isEmpty = true ↔ ∀ i ∈ s, i.next? g ≠ some x) ∧
    ∀ i ∈ s, i.next? g = some x → i.marker + 1 ≤ capacity
  /-- an item of a foreign rule cannot be closed -/
  closure_fails : ∀ l, (∃ i ∈ l, g.rule? i.rule = none) →
    (ItemSet.ofList l).closure? g = none ∧ (Checked.closure g l).Misses
  /-- from a set with an item of a foreign rule nothing goes on -/
  goto_fails : ∀ (s : ItemSet) (x : Symbol), (∃ i ∈ s, g.rule? i.rule = none) →
    s.goto? g x = none ∧ (Checked.goto g s x).Misses

/-- A list with an item of a foreign rule has no rules for all its items. -/
theorem Grammar.not_hasRulesOf {g : Grammar} {l : List Item} (h : ∃ i ∈ l, g.rule? i.rule = none) :
    ¬ g.HasRulesOf l := by
  obtain ⟨i, hi, hnone⟩ := h
  intro hrules
  obtain ⟨r, hr⟩ := hrules i hi
  rw [hnone] at hr
  cases hr

/-- **Closures in the grammar of a rule list are least closed sets, and goto sets are built on them.** -/
theorem Grammar.hasLeastClosures_of_augment {defs : List RuleDef} {g : Grammar}
    (h : Grammar.augment defs = .ok g) : g.HasLeastClosures := by
  have wf := wellFormed_of_augment h
  have room := hasRoom_of_augment h
  constructor
  case closure =>
    intro l hl
    refine ⟨(ItemSet.ofList l).closure g,
      ItemSet.closure?_eq_some.mpr ⟨ItemSet.hasRulesOf_ofList.mpr hl, rfl⟩,
      Checked.closure_eq wf hl, ItemSet.sorted _, ?_⟩
    simpa only [ItemSet.mem_ofList] using ItemSet.isLeast_closure wf (ItemSet.ofList l)
  case congr => exact fun l l' hmem => by rw [ItemSet.ofList_congr hmem]
  case idempotent =>
    intro l c hc
    obtain ⟨hl, rfl⟩ := ItemSet.closure?_eq_some.mp hc
    exact ItemSet.closure?_eq_some.mpr
      ⟨ItemSet.hasRulesOf_closure hl, ItemSet.closure_closure wf _⟩
  case monotone =>
    intro l l' c c' hc hc' hsub i hi
    obtain ⟨-, rfl⟩ := ItemSet.closure?_eq_some.mp hc
    obtain ⟨-, rfl⟩ := ItemSet.closure?_eq_some.mp hc'
    exact ItemSet.closure_mono wf
      (fun j hj => ItemSet.mem_ofList.mpr (hsub j (ItemSet.mem_ofList.mp hj))) hi
  case union =>
    intro l l' c c' hc hc'
    obtain ⟨hl, rfl⟩ := ItemSet.closure?_eq_some.mp hc
    obtain ⟨hl', rfl⟩ := ItemSet.closure?_eq_some.mp hc'
    rw [ItemSet.closure?_eq_some, ItemSet.ofList_append, ItemSet.closure_union wf]
    exact ⟨fun i hi => (ItemSet.mem_union.mp hi).elim (hl i) (hl' i), rfl⟩
  case goto =>
    intro s x hs
    have hkernel : g.HasRulesOf (s.kernel g x).items := by
      intro j hj
      obtain ⟨i, hi, -, rfl⟩ := ItemSet.mem_kernel.mp hj
      exact hs i hi
    refine ⟨s.goto g x, ItemSet.goto?_eq_some.mpr ⟨hs, rfl⟩, Checked.goto_eq wf room hs x,
      ⟨(s.kernel g x).items, fun j => ?_, ?_⟩, ItemSet.isEmpty_goto_iff wf,
      fun i _ hnext => Item.marker_lt_capacity room hnext⟩
    · refine ItemSet.mem_kernel.trans (exists_congr fun i => ?_)
      rw [eq_comm (b := j)]
      rfl
    · rw [ItemSet.ofList_items]
      exact ItemSet.closure?_eq_some.mpr ⟨hkernel, rfl⟩
  case closure_fails =>
    intro l hl
    refine ⟨Option.eq_none_iff_forall_ne_some.mpr fun c hc => ?_, Checked.misses_closure hl⟩
    exact not_hasRulesOf hl (ItemSet.hasRulesOf_ofList.mp (ItemSet.closure?_eq_some.mp hc).1)
  case goto_fails =>
    intro s x hs
    refine ⟨Option.eq_none_iff_forall_ne_some.mpr fun c hc => ?_, Checked.misses_goto room hs x⟩
    exact not_hasRulesOf hs (ItemSet.goto?_eq_some.mp hc).1

/-- A list with an item that expects the start symbol, one of a rule that comes again, one with its marker
beyond the end of its rule, and a repetition. -/
theorem Grammar.hasLeastClosures_of_augment_starRules : ∃ g, Grammar.augment starRules = .ok g ∧
    g.HasLeastClosures ∧ g.HasRulesOf [⟨1, 1⟩, ⟨2, 0⟩, ⟨1, 65535⟩, ⟨1, 1⟩] ∧
    ∃ c, (ItemSet.ofList [⟨1, 1⟩, ⟨2, 0⟩, ⟨1, 65535⟩, ⟨1, 1⟩]).closure? g = some c ∧
      c.items = [⟨1, 0⟩, ⟨1, 1⟩, ⟨1, 65535⟩, ⟨2, 0⟩, ⟨3, 0⟩, ⟨4, 0⟩] := by
  obtain ⟨g, hg⟩ : ∃ g, Grammar.augment starRules = .ok g :=
    Grammar.exists_augment (by decide) (by unfold RuleDef.IsValid; decide) (by decide) (by decide)
  have hsame := Grammar.sameNumbers_ofDefs hg
  rw [ofDefs_starRules] at hsame
  have hleast := Grammar.hasLeastClosures_of_augment hg
  have hrules : g.HasRulesOf [⟨1, 1⟩, ⟨2, 0⟩, ⟨1, 65535⟩, ⟨1, 1⟩] := by
    intro i hi
    rw [hsame.rule?]
    fin_cases hi <;> exact ⟨_, rfl⟩
  obtain ⟨c, hc, -⟩ := hleast.closure _ hrules
  refine ⟨g, hg, hleast, hrules, c, hc, ?_⟩
  rw [← (ItemSet.closure?_eq_some.mp hc).2, hsame.closure]
  cbv

end ShiftReduce
